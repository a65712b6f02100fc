import ClassPatch.Proofs.Flow.Effort
import ClassPatch.Proofs.Halting

/-!
# Look-ups of an analysis

An analysis reads its tables at positions that it has computed: the starts of the rows of labels,
the events, the states and the marks of what is queued. Here each of these look-ups is done without
a test whether the row is there, and halts if it is not. It always is.

The positions come from three places. A label is placed at an event, and there is a start of a row
for every event. Something flows to a position only if it is one of an event, and there is a state
and a mark for every event. So what is queued is the position of an event: `Inside` says so of a
progress, and every edge keeps it.
-/

namespace ClassPatch

/-! ### Starts of rows -/

theorem rowStarts_concat (events : List Event) (e : Event) :
    rowStarts (events ++ [e]) = (noteRow (events.foldl noteRow (#[], none)) e).1 := by
  rw [rowStarts_eq, List.foldl_append]
  rfl

@[simp] theorem size_rowStarts (events : List Event) : (rowStarts events).size = events.length := by
  rw [rowStarts_eq]
  exact (rowsNoted events).size

/-- The scan is in a row of labels behind a label, and the start of the row is that of the label. -/
theorem row_scanned (events : List Event) : (events.foldl noteRow (#[], none)).2 =
    match events.getLast? with
    | some (.label _) => (rowStarts events)[events.length - 1]?
    | _ => none := by
  induction events using List.reverseRecOn with
  | nil => rfl
  | append_singleton events e ih =>
    have hsize := size_rowStarts events
    rw [rowStarts_eq] at hsize
    rw [List.getLast?_concat, rowStarts_concat, List.foldl_append]
    generalize events.foldl noteRow (#[], none) = acc at hsize ⊢
    obtain ⟨starts, row⟩ := acc
    cases e with
    | instr i => rfl
    | label l => cases row <;> simp [noteRow, ← hsize]

namespace Unguarded

/-- The start of the row that an event belongs to, read from the start of the event in front of it
if both are labels. -/
def startOf (events : Array Event) (starts : Array Nat) : Event → Nat → Except Halt Nat
  | .label _, previous + 1 => do
    match ← demand events[previous]? with
    | .label _ => demand starts[previous]?
    | .instr _ => return previous + 1
  | _, index => return index

/-- Notes the position of a label, and the start of the row. -/
def noteEvent (events : Array Event) (tables : Std.TreeMap Label Nat × Array Nat)
    (row : Event × Nat) : Except Halt (Std.TreeMap Label Nat × Array Nat) := do
  let start ← startOf events tables.2 row.1 row.2
  let labels ← report (notePosition tables.1 row)
  return (labels, tables.2.push start)

/-- The positions of the placed labels, and the starts of the rows of labels. -/
def tables (events : List Event) : Except Halt (Std.TreeMap Label Nat × Array Nat) :=
  events.zipIdx.foldlM (noteEvent events.toArray) (∅, #[])

/-- The start of the next event is that of the scan. -/
theorem startOf_eq {events : Array Event} {front back : List Event} {e : Event}
    (h : events = (front ++ e :: back).toArray) : ∃ start,
      startOf events (rowStarts front) e front.length = .ok start ∧
        (rowStarts front).push start = rowStarts (front ++ [e]) := by
  subst h
  have hrow := row_scanned front
  have hsize := size_rowStarts front
  rw [rowStarts_concat]
  rw [rowStarts_eq] at hrow hsize ⊢
  generalize front.foldl noteRow (#[], none) = acc at hrow hsize ⊢
  obtain ⟨starts, row⟩ := acc
  dsimp only at hrow hsize
  cases e with
  | instr i => exact ⟨front.length, rfl, by rw [noteRow, hsize]⟩
  | label l =>
    rcases List.eq_nil_or_concat' front with rfl | ⟨front, e, rfl⟩
    · refine ⟨0, rfl, ?_⟩
      rw [hrow]
      exact congrArg starts.push hsize.symm
    · have hlength : (front ++ [e]).length = front.length + 1 := by
        rw [List.length_append, List.length_singleton]
      have hlt : front.length < starts.size := by omega
      have hlast : (front ++ [e] ++ .label l :: back).toArray[front.length]? = some e := by simp
      rw [List.getLast?_concat] at hrow
      rw [hlength, startOf, demand_of_eq_some hlast]
      cases e with
      | instr i =>
        replace hrow : row = none := hrow
        refine ⟨front.length + 1, rfl, ?_⟩
        rw [hrow]
        exact congrArg starts.push (hsize.trans hlength).symm
      | label l' =>
        have hstart : starts[front.length]? = some starts[front.length] :=
          Array.getElem?_eq_getElem hlt
        replace hrow : row = starts[(front ++ [Event.label l']).length - 1]? := hrow
        rw [hlength, Nat.add_sub_cancel, hstart] at hrow
        refine ⟨starts[front.length], demand_of_eq_some hstart, ?_⟩
        rw [hrow]
        rfl

theorem tables_eq (events : List Event) : tables events =
    report ((fun labels => (labels, rowStarts events)) <$> placements events) := by
  suffices h : ∀ (back front : List Event) (labels : Std.TreeMap Label Nat),
      (back.zipIdx front.length).foldlM (noteEvent (front ++ back).toArray)
          (labels, rowStarts front) =
        report ((fun labels => (labels, rowStarts (front ++ back))) <$>
          (back.zipIdx front.length).foldlM notePosition labels) from h events [] ∅
  intro back
  induction back with
  | nil =>
    intro front labels
    rw [List.append_nil]
    rfl
  | cons e back ih =>
    intro front labels
    obtain ⟨start, hstart, hpush⟩ := startOf_eq (rfl : (front ++ e :: back).toArray = _)
    have hrest := ih (front ++ [e])
    rw [List.length_append, List.length_singleton, List.append_assoc, List.singleton_append,
      ← hpush] at hrest
    simp only [List.zipIdx_cons, List.foldlM_cons, noteEvent, hstart]
    cases notePosition labels (e, front.length) with
    | error e => rfl
    | ok labels' => exact hrest labels'

/-! ### The graph -/

/-- The position that a reference to a label means. -/
def target (labels : Std.TreeMap Label Nat) (starts : Array Nat) (l : Label) : Except Halt Nat :=
  match labels[l]? with
  | some index => demand starts[index]?
  | none => .error (.failed (.undefinedLabel l))

/-- The hints of frames at placed labels; of two at one position the first counts. -/
def hintStates (labels : Std.TreeMap Label Nat) (starts : Array Nat)
    (frames : List (Label × Frame)) : Except Halt (Std.TreeMap Nat FlowState) :=
  frames.foldlM (fun hints (l, frame) =>
    match labels[l]? with
    | some index => do return hints.insertIfNew (← demand starts[index]?) (.ofFrame frame)
    | none => return hints) ∅

def guardedRange (labels : Std.TreeMap Label Nat) (starts : Array Nat) (h : Handler) :
    Except Halt GuardedRange := do
  let start ← target labels starts h.start
  let stop ← target labels starts h.stop
  let target ← target labels starts h.target
  return { start, stop, target, caught := .object (h.catchType.getD FlowGraph.throwable) }

/-- The graph of some events. -/
def graph (events : List Event) (handlers : List Handler) (frames : List (Label × Frame))
    (method : MethodContext) : Except Halt FlowGraph := do
  let (labels, starts) ← tables events
  let hints ← hintStates labels starts frames
  let ranges ← handlers.mapM (guardedRange labels starts)
  return { method, events := events.toArray, labels, runStarts := starts, hints, ranges }

section Graph

variable {labels : Std.TreeMap Label Nat} {starts : Array Nat}
  (h : ∀ (l : Label) (index : Nat), labels[l]? = some index → index < starts.size)
include h

theorem target_eq (l : Label) :
    target labels starts l = report (FlowGraph.target labels starts l) := by
  rw [target, FlowGraph.target]
  cases hindex : labels[l]? with
  | none => rfl
  | some index =>
    have hstart := Array.getElem?_eq_getElem (h l index hindex)
    rw [Option.bind_some, hstart]
    exact demand_of_eq_some hstart

theorem hintStates_eq (frames : List (Label × Frame)) :
    hintStates labels starts frames = .ok (FlowGraph.hintStates labels starts frames) := by
  refine Except.foldlM_eq_foldl fun hints row _ => ?_
  obtain ⟨l, frame⟩ := row
  cases hindex : labels[l]? with
  | none => simp only [hindex]; rfl
  | some index =>
    have hstart := Array.getElem?_eq_getElem (h l index hindex)
    simp only [hindex, Option.bind_some, hstart]
    rfl

theorem guardedRange_eq (handler : Handler) : guardedRange labels starts handler =
    report (FlowGraph.guardedRange labels starts handler) :=
  bind_eq_report (target_eq h _) fun _ _ => bind_eq_report (target_eq h _) fun _ _ =>
    bind_eq_report (target_eq h _) fun _ _ => rfl

end Graph

variable {events : List Event} {handlers : List Handler} {frames : List (Label × Frame)}
  {method : MethodContext}

/-- Every placed label has a start of a row. -/
theorem lt_of_placements {labels : Std.TreeMap Label Nat} (h : placements events = .ok labels)
    (l : Label) (index : Nat) (hindex : labels[l]? = some index) :
    index < (rowStarts events).size := by
  rw [size_rowStarts]
  exact (List.getElem?_eq_some_iff.mp (((placements_spec h).2 l index).mp hindex)).1

theorem graph_eq (events : List Event) (handlers : List Handler) (frames : List (Label × Frame))
    (method : MethodContext) : graph events handlers frames method =
      report (FlowGraph.ofEvents events handlers frames method) := by
  rw [graph, FlowGraph.ofEvents, tables_eq]
  cases hlabels : placements events with
  | error e => rfl
  | ok labels =>
    have hlt := lt_of_placements hlabels
    have hranges := mapM_eq_report fun handler (_ : handler ∈ handlers) =>
      guardedRange_eq hlt handler
    simp only [Functor.map, Except.map, report_ok, Bind.bind, Except.bind, hintStates_eq hlt,
      hranges]
    cases handlers.mapM (FlowGraph.guardedRange labels (rowStarts events)) <;> rfl

end Unguarded

/-- The labels of a graph have positions, and every position has a start of a row. -/
structure FlowGraph.Indexed (g : FlowGraph) : Prop where
  labels : ∀ (l : Label) (index : Nat), g.labels[l]? = some index → index < g.events.size
  runStarts : g.runStarts.size = g.events.size

theorem FlowGraph.indexed_of_ofEvents {events : List Event} {handlers : List Handler}
    {frames : List (Label × Frame)} {method : MethodContext} {g : FlowGraph}
    (h : ofEvents events handlers frames method = .ok g) : g.Indexed := by
  obtain ⟨labels, ranges, hlabels, -, rfl⟩ := ofEvents_eq_ok.mp h
  have hlt := Unguarded.lt_of_placements hlabels
  simp only [size_rowStarts] at hlt
  exact ⟨hlt, size_rowStarts events⟩

namespace Unguarded

variable {g : FlowGraph}

/-! ### Events -/

def position (g : FlowGraph) (l : Label) : Except Halt Nat := target g.labels g.runStarts l

/-- The events from a position on, which is one of an event or the end. -/
def eventsFrom (events : Array Event) (index : Nat) : Except Halt (List Event) :=
  if index ≤ events.size then .ok (events.toList.drop index) else .error .outside

/-- The class of the `new` that a label marks. -/
def newClass (g : FlowGraph) (l : Label) : Except Halt (Option String) :=
  match g.labels[l]? with
  | none => return none
  | some index => do
    match (← eventsFrom g.events (index + 1)).find? (!·.isLabel) with
    | some (.instr (.typeUse .newObject className)) => return some className
    | _ => return none

/-- The label directly in front of a position. -/
def labelBefore (g : FlowGraph) : Nat → Except Halt (Option Label)
  | 0 => return none
  | index + 1 => do
    match ← demand g.events[index]? with
    | .label l => return some l
    | .instr _ => return none

/-- The type of an object after its constructor has run. -/
def initialized (g : FlowGraph) (owner : String) :
    VerificationType → Except Halt (Option VerificationType)
  | .uninitializedThis => return some (.object g.method.className)
  | .uninitialized site => do return some (.object ((← newClass g site).getD owner))
  | _ => return none

/-- The state after a call. -/
def call (g : FlowGraph) (kind : InvokeKind) (owner name descriptor : String) (s : FlowState) :
    Except Halt FlowState := do
  let d ← report (MethodDescriptor.parse descriptor)
  let s ← report (s.pop d.parameterSlots.toNat)
  if kind = .static then
    return s.pushResult d
  else
    let (receiver, s) ← report (s.popValue 1)
    if kind = .special && name = constructorName then
      let initialized ← initialized g owner receiver
      return ((initialized.map (s.replace receiver ·)).getD s).pushResult d
    else
      return s.pushResult d

/-- The outcome of the event at a position. Other events than these look nothing up. -/
def transfer (g : FlowGraph) (index : Nat) (event : Event) (s : FlowState) :
    Except Halt Transfer :=
  match event with
  | .instr (.jump .jsr l) => do return ⟨s, s.push .top, [← position g l]⟩
  | .instr (.jump kind l) => do
    let s ← report (s.pop kind.words)
    return ⟨s, s, [← position g l]⟩
  | .instr (.tableSwitch _ _ default targets) => do
    let s ← report (s.pop 1)
    return ⟨s, s, ← (default :: targets).mapM (position g)⟩
  | .instr (.lookupSwitch default cases) => do
    let s ← report (s.pop 1)
    return ⟨s, s, ← (default :: cases.map (·.2)).mapM (position g)⟩
  | .instr (.invoke kind owner name descriptor _) => do
    return .straight (← call g kind owner name descriptor s)
  | .instr (.typeUse .newObject className) => do
    match ← labelBefore g index with
    | some l => return .straight (s.push (.uninitialized l))
    | none => throw (.failed (.notSupported (.unlabeledNew className)))
  | event => report (g.transfer index event s)

section Events

variable (hg : g.Indexed)
include hg

theorem position_eq (l : Label) : position g l = report (g.position l) :=
  target_eq (fun l index hindex => hg.runStarts ▸ hg.labels l index hindex) l

omit hg in
/-- Past labels there is an instruction, or the end. -/
theorem instructionAt?_eq (events : Array Event) (index : Nat) :
    FlowGraph.instructionAt? events index =
      match (events.toList.drop index).find? (!·.isLabel) with
      | some (.instr i) => some i
      | _ => none := by
  induction index using FlowGraph.instructionAt?.induct events with
  | case1 index hlt l he ih =>
    rw [FlowGraph.instructionAt?, dif_pos hlt, he, List.drop_eq_getElem_cons hlt,
      Array.getElem_toList, he, List.find?_cons_of_neg (by simp [Event.isLabel])]
    exact ih
  | case2 index hlt i he =>
    rw [FlowGraph.instructionAt?, dif_pos hlt, he, List.drop_eq_getElem_cons hlt,
      Array.getElem_toList, he, List.find?_cons_of_pos (by simp [Event.isLabel])]
  | case3 index hge =>
    rw [FlowGraph.instructionAt?, dif_neg hge, List.drop_eq_nil_of_le (by simpa using hge)]
    rfl

theorem newClass_eq (l : Label) : newClass g l = .ok (g.newClass? l) := by
  rw [newClass, FlowGraph.newClass?]
  cases hindex : g.labels[l]? with
  | none => rfl
  | some index =>
    have hfrom : eventsFrom g.events (index + 1) = .ok (g.events.toList.drop (index + 1)) :=
      if_pos (hg.labels l index hindex)
    simp only [Option.bind_some, instructionAt?_eq, hfrom, Bind.bind, Except.bind]
    generalize (g.events.toList.drop (index + 1)).find? (!·.isLabel) = found
    cases found with
    | none => rfl
    | some e =>
      cases e with
      | label l => rfl
      | instr i =>
        cases i with
        | typeUse use className => cases use <;> rfl
        | _ => rfl

omit hg in
theorem labelBefore_eq {index : Nat} (h : index ≤ g.events.size) :
    labelBefore g index = .ok (g.labelBefore? index) := by
  cases index with
  | zero => rfl
  | succ index =>
    have he := Array.getElem?_eq_getElem h
    rw [labelBefore, FlowGraph.labelBefore?, demand_of_eq_some he, he]
    cases g.events[index] <;> rfl

theorem initialized_eq (owner : String) (t : VerificationType) :
    initialized g owner t = .ok (FlowState.initialized? g owner t) := by
  cases t with
  | uninitialized site => rw [initialized, newClass_eq hg]; rfl
  | _ => rfl

theorem call_eq (kind : InvokeKind) (owner name descriptor : String) (s : FlowState) :
    call g kind owner name descriptor s = report (s.call g kind owner name descriptor) := by
  refine bind_eq_report rfl fun d _ => bind_eq_report rfl fun s' _ => ?_
  by_cases hstatic : kind = .static
  · rw [if_pos hstatic, if_pos hstatic]
    rfl
  · rw [if_neg hstatic, if_neg hstatic]
    refine bind_eq_report rfl fun receiver _ => ?_
    obtain ⟨receiver, s''⟩ := receiver
    dsimp only
    split
    · rw [initialized_eq hg]
      rfl
    · rfl

theorem transfer_eq {index : Nat} (h : index ≤ g.events.size) (e : Event) (s : FlowState) :
    transfer g index e s = report (g.transfer index e s) := by
  have hposition (l : Label) := position_eq hg l
  have htargets (ls : List Label) := mapM_eq_report fun l (_ : l ∈ ls) => hposition l
  cases e with
  | label l => rfl
  | instr i =>
    cases i with
    | jump kind l =>
      cases kind with
      | jsr => exact bind_eq_report (hposition l) fun _ _ => rfl
      | _ => exact bind_eq_report rfl fun _ _ => bind_eq_report (hposition l) fun _ _ => rfl
    | tableSwitch low high default targets =>
      exact bind_eq_report rfl fun _ _ => bind_eq_report (htargets _) fun _ _ => rfl
    | lookupSwitch default cases =>
      exact bind_eq_report rfl fun _ _ => bind_eq_report (htargets _) fun _ _ => rfl
    | invoke kind owner name descriptor ofInterface =>
      exact bind_eq_report (call_eq hg kind owner name descriptor s) fun _ _ => rfl
    | typeUse use className =>
      cases use with
      | newObject =>
        rw [transfer, labelBefore_eq h, FlowGraph.transfer, FlowGraph.transferInstruction,
          FlowState.useType]
        cases g.labelBefore? index <;> rfl
      | _ => rfl
    | _ => rfl

end Events

/-! ### The search -/

/-- Gives a position a state and asks for a visit. -/
def reach (index : Nat) (state : FlowState) (p : FlowProgress) : Except Halt FlowProgress := do
  let states ← put p.states index (some state)
  if ← demand p.queued[index]? then
    return { p with states }
  else
    return { p with states, pending := index :: p.pending, queued := ← put p.queued index true }

/-- Control reaches a position in the state `incoming`. -/
def flowTo (g : FlowGraph) (index : Nat) (incoming : FlowState) (p : FlowProgress) :
    Except Halt FlowProgress :=
  if g.events.size ≤ index then
    .error (.failed (.malformed (.flow (.fallsOff g.method.className g.method.methodName))))
  else
    let raised := p.raiseStack incoming.stack.length
    match g.hints[index]? with
    | some hint =>
      if hint.stack.length = incoming.stack.length then do
        match ← demand p.states[index]? with
        | none => reach index hint raised
        | some _ => return raised
      else
        .error (.failed (.malformed (.flow
          (.declaredHeight incoming.stack.length hint.stack.length index))))
    | none => do
      match ← demand p.states[index]? with
      | none => reach index incoming raised
      | some existing =>
        let merged ← report (existing.merge index incoming)
        if merged = existing then return raised else reach index merged raised

/-- Control flows along edges, one after the other. -/
def flowAlong (g : FlowGraph) (edges : List (Nat × FlowState)) (p : FlowProgress) :
    Except Halt FlowProgress :=
  edges.foldlM (fun p (index, incoming) => flowTo g index incoming p) p

/-- The progress after the next visit has been taken from the list. -/
def dequeue (index : Nat) (rest : List Nat) (p : FlowProgress) : Except Halt FlowProgress := do
  return { p with pending := rest, queued := ← put p.queued index false }

/-- Visits a position that has been reached. -/
def visit (g : FlowGraph) (index : Nat) (p : FlowProgress) : Except Halt FlowProgress := do
  match ← demand p.states[index]? with
  | none => return p
  | some state =>
    let event ← demand g.events[index]?
    let t ← transfer g index event state
    let raised := (p.raiseStack t.after.stack.length).raiseLocals t.after.locals.size
    flowAlong g (g.edges index event state t) raised

/-- Visits pending positions until none is left, with no more than a number of visits. -/
def search (g : FlowGraph) (visits : Nat) (p : FlowProgress) : Except Halt FlowProgress :=
  match p.pending, visits with
  | [], _ => .ok p
  | _ :: _, 0 => .error .unfinished
  | index :: rest, visits + 1 => do
    search g visits (← visit g index (← dequeue index rest p))

/-- The graph of some events, and the search in it in front of its first visit. -/
def enter (events : List Event) (handlers : List Handler) (frames : List (Label × Frame))
    (method : MethodContext) (maxLocals : UInt16) : Except Halt (FlowGraph × FlowProgress) := do
  let g ← graph events handlers frames method
  let entry := FlowState.ofFrame (← report (Frame.entry method))
  if events.isEmpty then
    throw (.failed (.malformed (.flow (.empty method.className method.methodName))))
  let p ← flowTo g 0 entry (.start g.events.size (max entry.locals.size maxLocals.toNat))
  return (g, p)

/-- Solves the flow of types through some events. -/
def analyze (events : List Event) (handlers : List Handler) (frames : List (Label × Frame))
    (method : MethodContext) (maxLocals : UInt16) : Except Halt FlowSolution := do
  let (g, p) ← enter events handlers frames method maxLocals
  let p ← search g (FlowSolution.mostVisits events frames method) p
  report (FlowSolution.ofProgress p)

/-- There is a state and a mark for every event, and only positions of events are queued. -/
structure Inside (g : FlowGraph) (p : FlowProgress) : Prop where
  states : p.states.size = g.events.size
  queued : p.queued.size = g.events.size
  pending : ∀ index ∈ p.pending, index < g.events.size

section Search

variable {p q : FlowProgress} {index : Nat} {incoming : FlowState}

theorem inside_start (g : FlowGraph) (maxLocals : Nat) :
    Inside g (.start g.events.size maxLocals) where
  states := Array.size_replicate
  queued := Array.size_replicate
  pending := nofun

theorem Inside.flowTo (hp : Inside g p) (h : g.flowTo index incoming p = .ok q) : Inside g q := by
  obtain ⟨state, new, hstate, -, rfl⟩ := FlowGraph.flowTo_eq_ok.mp h
  refine ⟨FlowProgress.size_states_receive.trans hp.states,
    FlowProgress.size_queued_receive.trans hp.queued, fun i hi => ?_⟩
  rw [FlowProgress.pending_receive] at hi
  split at hi
  · rcases List.mem_cons.mp hi with rfl | hi
    · exact hp.states ▸ (Array.getElem?_eq_some_iff.mp hstate).1
    · exact hp.pending i hi
  · exact hp.pending i hi

theorem Inside.flowAlong {edges : List (Nat × FlowState)} (hp : Inside g p)
    (h : g.flowAlong edges p = .ok q) : Inside g q := by
  induction edges generalizing p with
  | nil => exact Except.ok.inj h ▸ hp
  | cons edge edges ih =>
    simp only [FlowGraph.flowAlong] at h
    split at h
    · exact ih (hp.flowTo ‹_›) h
    · cases h

theorem Inside.dequeue {rest : List Nat} (hp : Inside g p) (hpending : p.pending = index :: rest) :
    Inside g (p.dequeue index rest) where
  states := hp.states
  queued := (Array.size_setIfInBounds ..).trans hp.queued
  pending i hi := hp.pending i (hpending ▸ List.mem_cons_of_mem index hi)

theorem Inside.visit (hp : Inside g p) (h : g.visit index p = .ok q) : Inside g q := by
  rw [FlowGraph.visit] at h
  split at h
  · split at h
    · rename_i t _
      have hraised : Inside g
          ((p.raiseStack t.after.stack.length).raiseLocals t.after.locals.size) :=
        ⟨hp.states, hp.queued, hp.pending⟩
      exact hraised.flowAlong h
    · cases h
  · exact Except.ok.inj h ▸ hp

theorem reach_eq (hp : Inside g p) (hindex : index < g.events.size) (state : FlowState) :
    reach index state p = .ok (p.reach index state) := by
  have hstates : index < p.states.size := hp.states.symm ▸ hindex
  have hqueued : index < p.queued.size := hp.queued.symm ▸ hindex
  have hmark := Array.getElem?_eq_getElem hqueued
  rw [reach, put_of_lt hstates, demand_of_eq_some hmark, FlowProgress.reach, hmark,
    Option.getD_some]
  cases p.queued[index] with
  | true => rfl
  | false =>
    rw [put_of_lt hqueued]
    rfl

theorem flowTo_eq (hp : Inside g p) (index : Nat) (incoming : FlowState) :
    flowTo g index incoming p = report (g.flowTo index incoming p) := by
  rw [flowTo, FlowGraph.flowTo]
  by_cases hindex : g.events.size ≤ index
  · have hstate : p.states[index]? = none := Array.getElem?_eq_none (hp.states ▸ hindex)
    rw [if_pos hindex, hstate]
    rfl
  · have hlt : index < p.states.size := hp.states ▸ Nat.lt_of_not_le hindex
    have hstate := Array.getElem?_eq_getElem hlt
    have hraised : Inside g (p.raiseStack incoming.stack.length) :=
      ⟨hp.states, hp.queued, hp.pending⟩
    have hreach := reach_eq hraised (Nat.lt_of_not_le hindex)
    rw [if_neg hindex, demand_of_eq_some hstate, hstate]
    cases g.hints[index]? with
    | some hint =>
      dsimp only
      split
      · cases p.states[index] with
        | none => exact hreach hint
        | some existing => rfl
      · rfl
    | none =>
      dsimp only
      cases p.states[index] with
      | none => exact hreach incoming
      | some existing =>
        simp only [Bind.bind, Except.bind]
        cases existing.merge index incoming with
        | error e => rfl
        | ok merged =>
          simp only [report_ok, hreach merged]
          split <;> rfl

theorem flowAlong_eq (hp : Inside g p) (edges : List (Nat × FlowState)) :
    flowAlong g edges p = report (g.flowAlong edges p) := by
  induction edges generalizing p with
  | nil => rfl
  | cons edge edges ih =>
    obtain ⟨index, incoming⟩ := edge
    simp only [flowAlong, List.foldlM_cons, flowTo_eq hp, FlowGraph.flowAlong]
    cases h : g.flowTo index incoming p with
    | error e => rfl
    | ok q => exact ih (hp.flowTo h)

theorem dequeue_eq {rest : List Nat} (hp : Inside g p) (hpending : p.pending = index :: rest) :
    dequeue index rest p = .ok (p.dequeue index rest) := by
  have hindex : index < p.queued.size :=
    hp.queued ▸ hp.pending index (hpending ▸ List.mem_cons_self ..)
  rw [dequeue, put_of_lt hindex]
  rfl

theorem visit_eq (hg : g.Indexed) (hp : Inside g p) (hindex : index < g.events.size) :
    visit g index p = report (g.visit index p) := by
  have hlt : index < p.states.size := hp.states.symm ▸ hindex
  have hstate := Array.getElem?_eq_getElem hlt
  have hevent := Array.getElem?_eq_getElem hindex
  rw [visit, FlowGraph.visit, demand_of_eq_some hstate, hstate, hevent]
  cases p.states[index] with
  | none => rfl
  | some state =>
    simp only [Bind.bind, Except.bind, demand, transfer_eq hg (Nat.le_of_lt hindex),
      Option.join_some]
    cases g.transfer index g.events[index] state with
    | error e => rfl
    | ok t =>
      have hraised : Inside g
          ((p.raiseStack t.after.stack.length).raiseLocals t.after.locals.size) :=
        ⟨hp.states, hp.queued, hp.pending⟩
      exact flowAlong_eq hraised _

/-- A search goes on behind a visit of what is pending first. -/
theorem search_visit (hg : g.Indexed) (hp : Inside g p) {rest : List Nat}
    (hpending : p.pending = index :: rest) (visits : Nat) : search g (visits + 1) p =
      report (g.visit index (p.dequeue index rest)) >>= search g visits := by
  have hindex : index < g.events.size := hp.pending index (hpending ▸ List.mem_cons_self ..)
  rw [search.eq_def, hpending]
  dsimp only
  rw [dequeue_eq hp hpending]
  exact congrArg (· >>= search g visits) (visit_eq hg (hp.dequeue hpending) hindex)

/-- A search that has ended by then has not halted. -/
theorem search_eq (hg : g.Indexed) (hp : Inside g p) {visits : Nat}
    {outcome : Except Error FlowProgress} (h : g.outcomeWithin visits p = some outcome) :
    search g visits p = report outcome := by
  induction visits, p using FlowGraph.outcomeWithin.induct g with
  | case1 visits p hpending =>
    rw [FlowGraph.outcomeWithin.eq_def, hpending] at h
    obtain rfl := Option.some.inj h
    rw [search.eq_def, hpending]
    rfl
  | case2 p index rest hpending =>
    rw [FlowGraph.outcomeWithin.eq_def, hpending] at h
    cases h
  | case3 p index rest visits hpending q hvisit ih =>
    rw [FlowGraph.outcomeWithin.eq_def, hpending] at h
    simp only [hvisit] at h
    rw [search_visit hg hp hpending, hvisit]
    exact ih ((hp.dequeue hpending).visit hvisit) h
  | case4 p index rest visits hpending e hvisit =>
    rw [FlowGraph.outcomeWithin.eq_def, hpending] at h
    simp only [hvisit] at h
    obtain rfl := Option.some.inj h
    rw [search_visit hg hp hpending, hvisit]
    rfl

end Search

section Analysis

variable (events : List Event) (handlers : List Handler) (frames : List (Label × Frame))
  (method : MethodContext) (maxLocals : UInt16)

theorem enter_eq : enter events handlers frames method maxLocals =
    report (FlowGraph.enter events handlers frames method maxLocals) := by
  rw [enter, FlowGraph.enter]
  refine bind_eq_report (graph_eq ..) fun g _ => bind_eq_report rfl fun frame _ => ?_
  split
  · rfl
  · exact bind_eq_report (flowTo_eq (inside_start g _) 0 _) fun p _ => rfl

variable {events handlers frames method maxLocals}

theorem inside_of_enter {g : FlowGraph} {p : FlowProgress}
    (h : FlowGraph.enter events handlers frames method maxLocals = .ok (g, p)) :
    g.Indexed ∧ Inside g p := by
  obtain ⟨g', hg, h⟩ := Except.bind_eq_ok.mp h
  obtain ⟨frame, -, h⟩ := Except.bind_eq_ok.mp h
  split at h
  · exact absurd h Except.throw_ne_ok
  · obtain ⟨p', hp, h⟩ := Except.bind_eq_ok.mp h
    obtain ⟨rfl, rfl⟩ := Prod.mk.inj (Except.pure_eq_ok.mp h)
    exact ⟨FlowGraph.indexed_of_ofEvents hg, (inside_start g' _).flowTo hp⟩

variable (events handlers frames method maxLocals)

/-- No look-up of an analysis is outside its table, and its search ends. -/
theorem analyze_eq : analyze events handlers frames method maxLocals =
    report (ClassPatch.analyze events handlers frames method maxLocals) := by
  rw [analyze, FlowSolution.analyze_eq_enter]
  refine bind_eq_report (enter_eq ..) fun entered hentered => ?_
  obtain ⟨g, p⟩ := entered
  obtain ⟨hg, hp⟩ := inside_of_enter hentered
  obtain ⟨hslots, hfits, hvisits⟩ := FlowSolution.affords_of_enter hentered
  have houtcome := FlowGraph.outcomeWithin_of_effort_le hslots hfits hvisits
  exact bind_eq_report (search_eq hg hp houtcome) fun p _ => rfl

end Analysis

end Unguarded
end ClassPatch
