import ClassPatch.Proofs.Code.UnguardedEmission

/-!
# Look-ups of an encoding

The tables of a body are written from the offsets, the indices and the states that have been noted
for labels, which are read without a test whether they have been. Encoding with these look-ups halts
only with the errors that encoding reports: what the tables of a body refer to has been checked on
its events, and rounds of layout keep all labels, so it has been noted when the last of them was
written.
-/

namespace ClassPatch

open PoolM CodeWriter

namespace Unguarded

/-! ### Rows -/

/-- A handler that is kept. -/
structure HandlerRow where
  start : Nat
  stop : Nat
  target : Nat
  catchType : UInt16
  /-- The label of the target. -/
  label : Label

/-- Control reaches a label that has been noted: there is a state at its index. -/
def reached (t : Tables) (l : Label) : Except Halt Bool :=
  match t.labelIndex[l]? with
  | some index => do return (← demand t.states[index]?).isSome
  | none => return false

/-- The class that a handler catches. -/
def catchType : Option String → EncodeM UInt16
  | some name => raise (PoolM.classRef name)
  | none => return 0

/-- The row of a handler, if it guards something and can be reached. -/
def handlerRow (t : Tables) (h : Handler) : EncodeM (Option HandlerRow) := do
  let start ← halting (demand t.labelOffsets[h.start]?)
  let stop ← halting (demand t.labelOffsets[h.stop]?)
  let reached ← halting (reached t h.target)
  if start < stop && reached then
    let catchType ← catchType h.catchType
    let target ← halting (demand t.labelOffsets[h.target]?)
    return some { start, stop, target, catchType, label := h.target }
  else
    return none

def handlerBytes (h : HandlerRow) : Bytes :=
  offsetBytes h.start ++ offsetBytes h.stop ++ offsetBytes h.target ++ Word.encode h.catchType

/-- The row of a line that begins inside the code. -/
def lineRow (t : Tables) (length : Nat) (line : Line) : Except Halt (Option Bytes) := do
  let offset ← demand t.labelOffsets[line.start]?
  return if offset < length then some (offsetBytes offset ++ Word.encode line.number) else none

/-- The row of a variable whose range is not empty; its labels are looked for. -/
def variableRow (t : Tables) (v : Variable) : Option Bytes :=
  match t.labelOffsets[v.start]?, t.labelOffsets[v.stop]? with
  | some start, some stop =>
    if start < stop then
      some (offsetBytes start ++ offsetBytes (stop - start) ++ Word.encode v.name ++
        Word.encode v.descriptor ++ Word.encode v.slot)
    else none
  | _, _ => none

/-! ### Stack maps -/

/-- Notes the state at the index of a label under its offset, unless there is one. -/
def noteFrame (t : Tables) (frames : Std.TreeMap Nat FlowState) (l : Label) :
    Except Halt (Std.TreeMap Nat FlowState) := do
  let index ← demand t.labelIndex[l]?
  match ← demand t.states[index]? with
  | some state => do
    let offset ← demand t.offsets[index]?
    return if frames.contains offset then frames else frames.insert offset state
  | none => return frames

/-- The offsets that control jumps to, each with the frame of the first label found there. -/
def frames (t : Tables) (targets : List Label) : Except Halt (List (Nat × Frame)) := do
  let reached ← targets.foldlM (noteFrame t) ∅
  return reached.toList.map fun (offset, state) => (offset, state.toFrame)

/-- The stack map, for the versions of the format that have it and if anything jumps. -/
def stackMap (t : Tables) (layout : Layout) (handlers : List HandlerRow) (method : MethodContext) :
    EncodeM (List Attribute) := do
  if method.majorVersion < 50 then
    return []
  let jumped := layout.placed.flatMap fun e => e.event.targets
  let frames ← halting (frames t (jumped ++ handlers.map (·.label)))
  if frames.isEmpty then
    return []
  let initial ← halting (report (Frame.entry method))
  let payload ← raise (StackMap.encode frames initial (offsetOf t.labelOffsets))
  return [{ name := ← raise (PoolM.text CodeAttribute.stackMapTable), payload }]

/-! ### Encoding -/

/-- The payload of the code attribute of a body with the given layout. -/
def payload (body : Body) (method : MethodContext) (layout : Layout) : EncodeM Bytes := do
  let (code, t) ← instructionBytes layout
  let handlers := (← body.handlers.mapM (handlerRow t)).filterMap id
  let lines := (← halting (body.lines.mapM (lineRow t code.length))).filterMap id
  let lines ← raise (tableAttribute CodeAttribute.lineTable .lines lines)
  let localVariables ← raise (tableAttribute CodeAttribute.variableTable .localVariables
    (body.localVariables.filterMap (variableRow t)))
  let localVariableTypes ← raise (tableAttribute CodeAttribute.variableTypeTable .localVariables
    (body.localVariableTypes.filterMap (variableRow t)))
  let stackMap ← stackMap t layout handlers method
  let kept ← raise (PoolM.lookUp fun pool => keptAttributes pool body.attributes)
  let handlerCount ← raise (countBytes handlers.length .handlers)
  let attributes ← halting (report
    (Attribute.encodeList (lines ++ localVariables ++ localVariableTypes ++ stackMap ++ kept)))
  return Word.encode layout.maxStack ++ Word.encode layout.maxLocals ++
    Word.encode (UInt32.ofNat code.length) ++ code ++
    handlerCount ++ handlers.flatMap handlerBytes ++ attributes

/-- The payload of the code attribute of a body. -/
def encode (body : Body) (method : MethodContext) : EncodeM Bytes := do
  halting (report body.checkLabels)
  let layout ← ofBody body method
  if layout.length > 65535 then
    throw (.failed (.limitExceeded (.codeLength layout.length method.className method.methodName)))
  payload body method layout

/-! ### What is looked up has been noted -/

section

variable {layout : Layout} {t : Tables} {p : ConstantPool}

namespace Tables.Note

/-- The offset that is noted for a label is that of its place. -/
theorem offsetOf_eq (h : t.Note layout layout.placed) :
    offsetOf t.labelOffsets = layout.places.offsetOf := by
  funext l
  have hoffset : t.labelOffsets[l]? = layout.places[l]?.map (·.offset) := by
    rw [h.labelOffsets]
    exact layout.labelOffsets_eq l
  rw [offsetOf, hoffset, Layout.Places.offsetOf, Layout.Places.find]
  cases layout.places[l]? <;> rfl

theorem labelOffset (h : t.Note layout layout.placed) {l : Label} (hl : layout.Resolves l) :
    t.labelOffsets[l]? = some (layout.offset l) := by
  rw [h.labelOffsets]
  exact hl.labelOffsets_eq

/-- At the index of a label stand the state and the offset of its place. -/
theorem exists_index (h : t.Note layout layout.placed) {l : Label} {e : PlacedEvent}
    (he : layout.places[l]? = some e) : ∃ index, t.labelIndex[l]? = some index ∧
      t.states[index]? = some e.state ∧ t.offsets[index]? = some e.offset := by
  obtain ⟨index, hindex, hplaced⟩ := h.labelIndex he
  refine ⟨index, hindex, ?_, ?_⟩
  · rw [h.states, List.getElem?_toArray, List.getElem?_map, hplaced]
    rfl
  · rw [h.offsets, List.getElem?_toArray, List.getElem?_map, hplaced]
    rfl

theorem reached_eq (h : t.Note layout layout.placed) {l : Label} {e : PlacedEvent}
    (he : layout.places[l]? = some e) : reached t l = .ok e.state.isSome := by
  obtain ⟨index, hindex, hstate, -⟩ := h.exists_index he
  simp only [reached, hindex, hstate]
  rfl

end Tables.Note

/-- The place of a label that has one. -/
theorem exists_place_of_resolves {l : Label} (h : layout.Resolves l) :
    ∃ e, layout.places[l]? = some e ∧ layout.places.find l = .ok e := by
  obtain ⟨offset, hoffset⟩ := h
  obtain ⟨e, he, -⟩ := Except.bind_eq_ok.mp hoffset
  exact ⟨e, Layout.find_eq_ok.mp he, he⟩

/-- The row of a handler goes with its place. -/
structure HandlerRow.Of (layout : Layout) (row : HandlerRow) (placed : PlacedHandler) : Prop where
  start : row.start = placed.start
  stop : row.stop = placed.stop
  target : row.target = placed.target.offset
  catchType : row.catchType = placed.catchType
  label : layout.places[row.label]? = some placed.target

theorem HandlerRow.Of.handlerBytes_eq {row : HandlerRow} {placed : PlacedHandler}
    (h : row.Of layout placed) : handlerBytes row = CodeWriter.handlerBytes placed := by
  rw [handlerBytes, CodeWriter.handlerBytes, h.start, h.stop, h.target, h.catchType]

/-- Handlers whose labels have places find what they look up. -/
theorem mirrors_handlerRow (ht : t.Note layout layout.placed) {h : Handler}
    (hresolves : ∀ l ∈ [h.start, h.stop, h.target], layout.Resolves l) (p : ConstantPool) :
    Mirrors (Option.Rel (HandlerRow.Of layout)) (handlerRow t h p)
      (placeHandler layout.places h p) := by
  have hstart := hresolves h.start (by simp)
  have hstop := hresolves h.stop (by simp)
  have htarget := hresolves h.target (by simp)
  obtain ⟨e, hplace, hfind⟩ := exists_place_of_resolves htarget
  rw [handlerRow, placeHandler, ht.labelOffset hstart, ht.labelOffset hstop, ht.labelOffset htarget,
    ht.reached_eq hplace, hstart.offsetOf_eq, hstop.offsetOf_eq, hfind]
  refine .ite (fun _ => ?_) fun _ => .pure .none p
  cases h.catchType with
  | none => exact .pure (.some ⟨rfl, rfl, Layout.offset_of_places hplace, rfl, hplace⟩) p
  | some name =>
    exact (Mirrors.raise _ p).bind fun {index index' q} _ heq =>
      .pure (.some ⟨rfl, rfl, Layout.offset_of_places hplace, heq, hplace⟩) q

theorem lineRow_eq (ht : t.Note layout layout.placed) {line : Line} (h : layout.Resolves line.start)
    (length : Nat) :
    lineRow t length line = report (CodeWriter.lineRow layout.places length line) := by
  rw [lineRow, CodeWriter.lineRow, ht.labelOffset h, h.offsetOf_eq]
  rfl

theorem variableRow_eq (ht : t.Note layout layout.placed) {v : Variable}
    (hstart : layout.Resolves v.start) (hstop : layout.Resolves v.stop) :
    CodeWriter.variableRow layout.places v = .ok (variableRow t v) := by
  rw [CodeWriter.variableRow, hstart.offsetOf_eq, hstop.offsetOf_eq]
  simp only [variableRow, ht.labelOffset hstart, ht.labelOffset hstop]
  rfl

/-- A computation that does not need the pool. -/
theorem mirrors_ofExcept {α : Type} (x : Except Error α) (p : ConstantPool) :
    Mirrors Eq ((halting (report x) : EncodeM α) p) (ofExcept x p) := by
  cases x with
  | ok a => exact .ok rfl p
  | error e => exact .error e p

theorem mirrors_lineRows (ht : t.Note layout layout.placed) {lines : List Line}
    (h : ∀ line ∈ lines, layout.Resolves line.start) (length : Nat) (p : ConstantPool) :
    Mirrors (fun rows rows' => rows.filterMap id = rows')
      ((halting (lines.mapM (lineRow t length)) : EncodeM _) p)
      (rows (CodeWriter.lineRow layout.places length) lines p) := by
  rw [mapM_eq_report fun line hline => lineRow_eq ht (h line hline) length]
  exact (mirrors_ofExcept _ p).map_right fun _ _ heq => heq ▸ rfl

theorem variableRows_eq (ht : t.Note layout layout.placed) {vs : List Variable}
    (h : ∀ v ∈ vs, ∀ l ∈ [v.start, v.stop], layout.Resolves l) :
    rows (CodeWriter.variableRow layout.places) vs = pure (vs.filterMap (variableRow t)) := by
  have hrows : vs.mapM (CodeWriter.variableRow layout.places) = .ok (vs.map (variableRow t)) :=
    Except.mapM_eq_map fun v hv => variableRow_eq ht (h v hv _ (by simp)) (h v hv _ (by simp))
  rw [rows, hrows]
  refine congrArg (fun found => (pure found : PoolM (List Bytes))) ?_
  rw [List.filterMap_map]
  rfl

theorem frames_eq (ht : t.Note layout layout.placed) {targets : List Label}
    (h : ∀ l ∈ targets, layout.Resolves l) :
    frames t targets = report (CodeWriter.frames layout.places targets) := by
  refine bind_eq_report (foldlM_eq_report (fun frames l hl => ?_) ∅) fun _ _ => rfl
  obtain ⟨e, hplace, hfind⟩ := exists_place_of_resolves (h l hl)
  obtain ⟨index, hindex, hstate, hoffset⟩ := ht.exists_index hplace
  rw [noteFrame, demand_bind hindex, demand_bind hstate, hfind]
  change _ = report (match e.state with
    | some state => pure (if frames.contains e.offset then frames else frames.insert e.offset state)
    | none => pure frames)
  cases e.state with
  | none => rfl
  | some state => exact demand_bind hoffset _

/-- The labels of kept handlers are those of their places. -/
theorem map_label_eq {rows : List HandlerRow} {handlers : List PlacedHandler}
    (h : List.Forall₂ (HandlerRow.Of layout) rows handlers) : rows.map (·.label) =
      handlers.filterMap fun h =>
        match h.target.event with
        | .label l => some l
        | .instr _ => none := by
  induction h with
  | nil => rfl
  | cons hrow _ ih =>
    simp only [List.map_cons, List.filterMap_cons, (Layout.mem_of_places hrow.label).2, ih]

/-- Where all targets have places, the stack map finds what it looks up. -/
theorem mirrors_stackMap (ht : t.Note layout layout.placed) {rows : List HandlerRow}
    {handlers : List PlacedHandler} (hrows : List.Forall₂ (HandlerRow.Of layout) rows handlers)
    (htargets : ∀ e ∈ layout.placed, ∀ l ∈ e.event.targets, layout.Resolves l)
    (method : MethodContext) (p : ConstantPool) : Mirrors Eq (stackMap t layout rows method p)
      (CodeWriter.stackMap layout.places layout handlers method p) := by
  have hresolves : ∀ l ∈ (layout.placed.flatMap fun e => e.event.targets) ++ rows.map (·.label),
      layout.Resolves l := by
    intro l hl
    rcases List.mem_append.mp hl with hl | hl
    · obtain ⟨e, he, hl⟩ := List.mem_flatMap.mp hl
      exact htargets e he l hl
    · obtain ⟨row, hrow, rfl⟩ := List.mem_map.mp hl
      obtain ⟨placed, -, hof⟩ := hrows.exists_right hrow
      exact .of_places hof.label
  refine .ite (fun _ => .pure rfl p) fun _ => ?_
  rw [frames_eq ht hresolves, map_label_eq hrows]
  refine (mirrors_ofExcept _ p).bind fun {_ frames q} _ heq => ?_
  obtain rfl := heq
  refine .ite (fun _ => .pure rfl q) fun _ => ?_
  refine (mirrors_ofExcept _ q).bind fun {_ initial q₁} _ heq => ?_
  obtain rfl := heq
  rw [ht.offsetOf_eq]
  refine (Mirrors.raise _ q₁).bind fun {_ payload q₂} _ heq => ?_
  obtain rfl := heq
  exact (Mirrors.raise _ q₂).bind fun {_ name q₃} _ heq => .pure (heq ▸ rfl) q₃

/-- Where all that a body refers to has a place, its tables find what they look up. -/
theorem mirrors_payload {body : Body} (hlayout : Writable layout p)
    (hreferences : ∀ l ∈ body.references, layout.Resolves l)
    (htargets : ∀ e ∈ layout.placed, ∀ l ∈ e.event.targets, layout.Resolves l)
    (method : MethodContext) :
    Mirrors Eq (payload body method layout p) (CodeWriter.payload body method layout p) := by
  have hvariables {vs : List Variable} (hvs : vs ⊆ body.localVariables ++ body.localVariableTypes) :
      ∀ v ∈ vs, ∀ l ∈ [v.start, v.stop], layout.Resolves l := fun v hv l hl =>
    hreferences l (Body.mem_references_of_variable (hvs hv) hl)
  refine (mirrors_instructionBytes hlayout).bind fun {written code q} _ h => ?_
  obtain ⟨_, t⟩ := written
  obtain ⟨rfl, ht⟩ := h
  refine (Mirrors.mapM (fun h hh => mirrors_handlerRow ht fun l hl =>
    hreferences l (Body.mem_references_of_handler hh hl)) q).bind fun {found found' q₁} _ hfound =>
      ?_
  have hrows : List.Forall₂ (HandlerRow.Of layout) (found.filterMap id) (found'.filterMap id) :=
    List.rel_filterMap (fun _ _ h => h) hfound
  refine (mirrors_lineRows ht (fun line hline =>
    hreferences _ (Body.mem_references_of_line hline)) _ q₁).bind fun {rows _ q₂} _ heq => ?_
  obtain rfl := heq
  refine (Mirrors.raise _ q₂).bind fun {_ lines q₃} _ heq => ?_
  obtain rfl := heq
  rw [variableRows_eq ht (hvariables (List.subset_append_left _ _)),
    variableRows_eq ht (hvariables (List.subset_append_right _ _)), pure_bind]
  refine (Mirrors.raise _ q₃).bind fun {_ localVariables q₄} _ heq => ?_
  obtain rfl := heq
  rw [pure_bind]
  refine (Mirrors.raise _ q₄).bind fun {_ localVariableTypes q₅} _ heq => ?_
  obtain rfl := heq
  refine (mirrors_stackMap ht hrows htargets method q₅).bind fun {_ stackMap q₆} _ heq => ?_
  obtain rfl := heq
  refine (Mirrors.raise _ q₆).bind fun {_ kept q₇} _ heq => ?_
  obtain rfl := heq
  rw [hrows.length_eq]
  refine (Mirrors.raise _ q₇).bind fun {_ handlerCount q₈} _ heq => ?_
  obtain rfl := heq
  refine (mirrors_ofExcept _ q₈).bind fun {_ attributes q₉} _ heq => .pure ?_ q₉
  rw [heq, hrows.flatMap_eq fun _ _ _ _ h => h.handlerBytes_eq.symm]

/-- What has been laid out can be written. -/
theorem writable_of_finds {body : Body} {method : MethodContext} (hp : p.WellFormed)
    (hlabels : body.checkLabels = .ok ()) (h : Finds (Layout.ofBody body method) p layout)
    (hlength : layout.length ≤ 65535) : Writable layout p := by
  obtain ⟨events, solution, sized, -, hisOf⟩ := Layout.exists_isOf hp h .refl
  exact ⟨hp, hisOf.madeIn hp, (Layout.agrees_of_ofBody hp hlabels).2 h, hlength⟩

/-- Encoding halts only with what it reports. -/
theorem mirrors_encode (hp : p.WellFormed) (body : Body) (method : MethodContext) :
    Mirrors Eq (encode body method p) (body.encode method p) := by
  rw [encode, Body.encode]
  cases hlabels : body.checkLabels with
  | error e => exact .error e p
  | ok _ =>
    refine .bind_left rfl (.bind_right rfl ?_)
    refine (mirrors_ofBody hp hlabels).bind fun {_ layout q} hlayout heq => ?_
    obtain rfl := heq
    have hq := (Layout.steady_ofEvents _ _).wellFormed hp hlayout
    have hfinds := (Layout.steady_ofEvents _ _).finds hp hlayout
    refine .ite (fun _ => .throw _ q) fun hlength => ?_
    have hwritable := writable_of_finds hq hlabels hfinds (Nat.le_of_not_lt hlength)
    refine mirrors_payload hwritable (fun l hl => ?_) (fun e he l hl => ?_) method
    · exact hwritable.made.resolves_of_placed hq hlabels hfinds (Body.mem_of_checkLabels hlabels hl)
    · exact Layout.resolves_of_target hq hlabels hfinds hwritable.made he hl

end

end Unguarded

/-- Analyzing and encoding look nothing up that is not there. With look-ups that are not tested, in
the starts of rows and the states by the index of an event, in the events behind a label, in the
offsets and indices that are noted for labels, and in the code where a blank is filled, both end as
they do without: with their result or with the error that they report. -/
theorem Unguarded.lookUps_succeed :
    (∀ (events : List Event) (handlers : List Handler) (frames : List (Label × Frame))
      (method : MethodContext) (maxLocals : UInt16),
      Unguarded.analyze events handlers frames method maxLocals =
        report (ClassPatch.analyze events handlers frames method maxLocals)) ∧
    ∀ (body : Body) (method : MethodContext) {p : ConstantPool}, p.WellFormed →
      Unguarded.encode body method p = raise (body.encode method) p :=
  ⟨Unguarded.analyze_eq,
    fun body method _ hp => (Unguarded.mirrors_encode hp body method).eq_raise⟩

/-- The payload of the code that jumps over an instruction, with one frame. -/
def jumpingPayload : Bytes :=
  [0, 0, 0, 0, 0, 0, 0, 4, 0xA7, 0, 3, 0xB1, 0, 0, 0, 1, 0, 1, 0, 0, 0, 3, 0, 1, 3]

theorem Unguarded.lookUps_succeed_jumping :
    let method : MethodContext := ⟨"A", "m", "()V", true, 52⟩
    ConstantPool.empty.WellFormed ∧
      ∃ p, Unguarded.encode jumpingCode method .empty = .ok jumpingPayload p := by
  intro method
  have hlabels : jumpingCode.checkLabels = .ok () :=
    Body.checkLabels_of_placed (by decide) (by decide)
  obtain ⟨layout, p, hlayout, hwritten⟩ := Layout.exists_ofBody jumpingCode method .empty
    (fun layout p => layout.length ≤ 65535 &&
      match CodeWriter.payload jumpingCode method layout p with
      | .ok payload _ => payload = jumpingPayload
      | .error _ _ => false) 10 (List.cons_ne_nil _ _) (by decide) (by decide +kernel)
  obtain ⟨hlength, hpayload⟩ := Bool.and_eq_true_iff.mp hwritten
  have hencode : ∃ q, jumpingCode.encode method .empty = .ok jumpingPayload q := by
    split at hpayload
    · rename_i payload q hok
      obtain rfl := of_decide_eq_true hpayload
      refine ⟨q, ?_⟩
      rw [Body.encode, hlabels]
      refine (EStateM.bind_of_ok rfl).trans ((EStateM.bind_of_ok hlayout).trans ?_)
      rw [if_neg (Nat.not_lt.mpr (of_decide_eq_true hlength))]
      exact hok
    · cases hpayload
  obtain ⟨q, hencode⟩ := hencode
  refine ⟨ConstantPool.wellFormed_empty, q, ?_⟩
  rw [Unguarded.lookUps_succeed.2 jumpingCode method ConstantPool.wellFormed_empty, raise,
    EStateM.adaptExcept, hencode]

end ClassPatch
