import ClassPatch.Proofs.Code.Decoding
import ClassPatch.Proofs.Code.Listing
import ClassPatch.Proofs.Code.Rounds
import ClassPatch.Proofs.Code.Writer
import ClassPatch.Proofs.ConstantPool.Limits
import ClassPatch.Proofs.Flow.Safety

/-!
# Code that only limits keep from being written

Code without jumps, calls and uses of types is written unless something does not fit: its layout
takes a single round, and of its tables only those rows are left that refer to placed labels.
-/

namespace ClassPatch

open PoolM

variable {p : ConstantPool}

/-- Code that only pushes constants and returns, with labels. -/
def Event.IsConstantCode : Event → Prop
  | .label _ | .instr (.push _) | .instr (.leave _) => True
  | _ => False

theorem Event.IsConstantCode.targets_eq {e : Event} (h : e.IsConstantCode) : e.targets = [] := by
  cases e with
  | label l => rfl
  | instr i =>
    cases i with
    | push _ | leave _ => rfl
    | _ => exact h.elim

namespace Value

/-- A constant has a form unless it does not fit into the pool. -/
theorem failsBy_form {E : Error → Prop} (hfull : E (.limitExceeded .poolFull)) (v : Value) :
    FailsBy E p v.form := by
  have hintern {c : Constant} (hfits : ∀ p : ConstantPool, p.check c = .ok ())
      (f : UInt16 → ConstantForm) :
      FailsBy E p (do return f (← intern c)) :=
    (failsBy_intern hfull hfits).andThen fun _ => .pure _
  cases v with
  | null | methodHandle _ | dynamic _ _ => exact .pure _
  | int value => exact .ite (.pure _) (.ite (.pure _) (.ite (.pure _) (hintern (fun _ => rfl) _)))
  | long value => exact .ite (.pure _) (.ite (.pure _) (hintern (fun _ => rfl) _))
  | float bits => exact .ite (.pure _) (.ite (.pure _) (.ite (.pure _) (hintern (fun _ => rfl) _)))
  | double bits => exact .ite (.pure _) (.ite (.pure _) (hintern (fun _ => rfl) _))
  | string text => exact (failsBy_string hfull _).andThen fun _ => .pure _
  | classRef name => exact (failsBy_classRef hfull _).andThen fun _ => .pure _
  | methodType descriptor => exact (failsBy_methodType hfull _).andThen fun _ => .pure _

theorem failsBy_bytes {E : Error → Prop} (hfull : E (.limitExceeded .poolFull)) (v : Value) :
    FailsBy E p v.bytes := (v.failsBy_form hfull).andThen fun _ => .pure _

theorem limited_form (v : Value) : Limited p v.form := v.failsBy_form ⟨_, rfl⟩

theorem limited_bytes (v : Value) : Limited p v.bytes := v.failsBy_bytes ⟨_, rfl⟩

end Value

namespace Layout

theorem limited_measure (rows : List (LayoutEvent × Option FlowState)) :
    Limited p (measure rows) := by
  refine .mapM fun row _ => FailsBy.andThen ?_ fun _ => .pure _
  cases row.1.event with
  | label l => exact .pure _
  | instr i =>
    cases i with
    | push v => exact v.limited_form.andThen fun _ => .pure _
    | invoke kind => cases kind <;> exact .pure _
    | _ => exact .pure _

variable {body : Body} {method : MethodContext} {events : List LayoutEvent} {supply : LabelSupply}

/-- Without conditional jumps there is a single round. -/
theorem finish_of_not_loose (h : looseCount events = 0) (solution : FlowSolution)
    (sized : List SizedEvent) : finish body method events supply solution sized =
      (return { placed := (settle sized).1, length := (settle sized).2,
                maxStack := solution.maxStack, maxLocals := solution.maxLocals }) := by
  unfold finish
  dsimp only
  rw [h, if_neg fun hfewer => Nat.not_lt_zero _ hfewer.2]

/-- The single round lays out what it measures. -/
theorem ofEvents_of_not_loose (h : looseCount events = 0) {q : ConstantPool}
    {solution : FlowSolution} {sized : List SizedEvent}
    (hsolution : analyze (events.map (·.event)) body.handlers body.frames method body.maxLocals =
      .ok solution)
    (hsized : measure (prune events solution) p = .ok sized q) :
    ofEvents body method events supply p =
      .ok ⟨(settle sized).1, (settle sized).2, solution.maxStack, solution.maxLocals⟩ q := by
  have hfound :
      PoolM.lookUp
        (fun _ => analyze (events.map (·.event)) body.handlers body.frames method body.maxLocals)
        p = .ok solution p := lookUp_of_ok hsolution
  rw [ofEvents_eq, EStateM.bind_of_ok hfound, EStateM.bind_of_ok hsized, finish_of_not_loose h]
  rfl

/-- An analysis that is looked up fails as it does otherwise. -/
theorem failsBy_lookUp {E : Error → Prop} {x : Except Error FlowSolution} (h : Except.FailsBy E x) :
    FailsBy E p (PoolM.lookUp fun _ => x) := by
  cases x with
  | error e => exact .throw (h e rfl)
  | ok solution => exact .lookUp (fun _ h => h) rfl

theorem limited_ofEvents (h : looseCount events = 0)
    (hanalyze : Except.FailsBy (fun e => ∃ limit, e = .limitExceeded limit)
      (analyze (events.map (·.event)) body.handlers body.frames method body.maxLocals)) :
    Limited p (ofEvents body method events supply) := by
  rw [ofEvents_eq]
  refine (failsBy_lookUp hanalyze).andThen fun solution =>
    (limited_measure _).andThen fun sized => ?_
  rw [finish_of_not_loose h]
  exact .pure _

theorem isOf_of_not_loose (hp : p.WellFormed) (h : looseCount events = 0) {layout : Layout}
    (hlayout : Finds (ofEvents body method events supply) p layout) :
    ∃ solution sized, layout.IsOf body method events solution sized p := by
  rw [ofEvents_eq] at hlayout
  obtain ⟨solution, hsolution, hlayout⟩ := (finds_bind (steady_analyze _)
    (fun _ => (steady_measure _).bind fun _ => steady_finish _ _ _ _) hp).mp hlayout
  obtain ⟨sized, hsized, hlayout⟩ := (finds_bind (steady_measure _)
    (fun _ => steady_finish _ _ _ _) hp).mp hlayout
  rw [finish_of_not_loose h] at hlayout
  obtain rfl := finds_pure.mp hlayout
  exact ⟨solution, sized, ⟨finds_analyze hsolution, hsized⟩, rfl, rfl, rfl⟩

end Layout

/-! ### Writing -/

namespace CodeWriter

open Layout (Places)

variable {body : Body} {method : MethodContext} {layout : Layout} {places : Places}

theorem failsBy_ofExcept {α : Type} {E : Error → Prop} {x : Except Error α}
    (h : Except.FailsBy E x) : FailsBy E p (ofExcept x) := by
  cases x with
  | error e => exact .throw (h e rfl)
  | ok x => exact .pure x

theorem limited_countBytes (count : Nat) (limit : Nat → Limit) :
    Limited p (countBytes count limit) :=
  .ite (.pure _) (.throw ⟨_, rfl⟩)

theorem limited_tableAttribute (name : String) (limit : Nat → Limit) (rows : List Bytes) :
    Limited p (tableAttribute name limit rows) :=
  .ite (.pure _)
    ((limited_countBytes _ _).andThen fun _ => (failsBy_text ⟨_, rfl⟩ _).andThen fun _ => .pure _)

theorem limited_rows {α : Type} {row : α → Except Error (Option Bytes)} {xs : List α}
    (h : ∀ x ∈ xs, ∃ bytes, row x = .ok bytes) : Limited p (rows row xs) := by
  obtain ⟨all, hall⟩ := Except.exists_mapM h
  exact (failsBy_ofExcept (.of_eq_ok hall)).andThen fun _ => .pure _

theorem limited_encodeList (attributes : List Attribute) :
    Limited p (ofExcept (Attribute.encodeList attributes)) := by
  have hencode (a : Attribute) : (∃ bytes, a.encode = .ok bytes) ∨
      ∃ limit, a.encode = .error (.limitExceeded limit) := by
    unfold Attribute.encode
    split
    · exact .inl ⟨_, rfl⟩
    · exact .inr ⟨_, rfl⟩
  have hmapM : (∃ all, attributes.mapM Attribute.encode = .ok all) ∨
      ∃ limit, attributes.mapM Attribute.encode = .error (.limitExceeded limit) := by
    induction attributes with
    | nil => exact .inl ⟨[], rfl⟩
    | cons a attributes ih =>
      rw [List.mapM_cons]
      rcases hencode a with ⟨bytes, ha⟩ | ⟨limit, ha⟩
      · rcases ih with ⟨all, hall⟩ | ⟨limit, hall⟩
        · exact .inl ⟨bytes :: all, by rw [ha, hall]; rfl⟩
        · exact .inr ⟨limit, by rw [ha, hall]; rfl⟩
      · exact .inr ⟨limit, by rw [ha]; rfl⟩
  unfold Attribute.encodeList
  split
  · rcases hmapM with ⟨all, hall⟩ | ⟨limit, hall⟩
    · rw [hall]
      exact .pure _
    · rw [hall]
      exact .throw ⟨limit, rfl⟩
  · exact .throw ⟨_, rfl⟩

theorem limited_eventBytes {e : PlacedEvent} (h : e.event.IsConstantCode) :
    Limited p (eventBytes places e) := by
  unfold eventBytes
  split
  · exact .pure _
  · rename_i i hevent
    rw [hevent] at h
    cases i with
    | push v => exact v.limited_bytes
    | leave kind => exact .pure _
    | _ => exact h.elim

/-- A handler that guards nothing is left out. -/
theorem placeHandler_of_not_lt {h : Handler} (hstart : layout.Resolves h.start)
    (hstop : layout.Resolves h.stop) (htarget : layout.Resolves h.target)
    (hnot : ¬layout.offset h.start < layout.offset h.stop) :
    placeHandler layout.places h = pure none := by
  obtain ⟨offset, htarget⟩ := htarget
  obtain ⟨e, he, -⟩ := Except.bind_eq_ok.mp htarget
  unfold placeHandler
  rw [hstart.offsetOf_eq, hstop.offsetOf_eq, he]
  simp [ofExcept, hnot]

theorem stackMap_of_no_targets (h : ∀ e ∈ layout.placed, e.event.targets = []) :
    stackMap places layout [] method = pure [] := by
  have hjumped : (layout.placed.flatMap fun e => e.event.targets) = [] :=
    List.flatMap_eq_nil_iff.mpr h
  unfold stackMap
  rw [hjumped]
  split <;> rfl

/-- Handlers that guard nothing leave nothing behind. -/
theorem mapM_placeHandler_of_not_lt {handlers : List Handler}
    (hresolves : ∀ h ∈ handlers, ∀ l ∈ [h.start, h.stop, h.target], layout.Resolves l)
    (hnot : ∀ h ∈ handlers, ¬layout.offset h.start < layout.offset h.stop) :
    handlers.mapM (placeHandler layout.places) = pure (handlers.map fun _ => none) := by
  induction handlers with
  | nil => rfl
  | cons h handlers ih =>
    simp only [List.mem_cons, forall_eq_or_imp] at hresolves hnot
    rw [List.mapM_cons, ih (by simpa using hresolves.2) hnot.2,
      placeHandler_of_not_lt (hresolves.1.1) (hresolves.1.2.1) (hresolves.1.2.2.1) hnot.1]
    rfl

theorem exists_kept {attributes : List Attribute}
    (h : ∀ a ∈ attributes, CodeAttribute.IsOther p a) :
    ∃ kept, keptAttributes p attributes = .ok kept := by
  have hnamed : ∀ a ∈ attributes,
      ∃ row, (do return (← p.text a.name, a) : Except Error (String × Attribute)) = .ok row := by
    intro a ha
    obtain ⟨name, hname, -⟩ := CodeAttribute.isOther_iff.mp (h a ha)
    exact ⟨_, Except.bind_eq_ok.mpr ⟨name, hname, rfl⟩⟩
  obtain ⟨named, hnamed⟩ := Except.exists_mapM hnamed
  exact ⟨_, Except.bind_eq_ok.mpr ⟨named, hnamed, rfl⟩⟩

theorem exists_lineRow {line : Line} (h : layout.Resolves line.start) (length : Nat) :
    ∃ bytes, lineRow layout.places length line = .ok bytes :=
  ⟨_, Except.bind_eq_ok.mpr ⟨_, h.offsetOf_eq, rfl⟩⟩

theorem exists_variableRow {v : Variable} (hstart : layout.Resolves v.start)
    (hstop : layout.Resolves v.stop) : ∃ bytes, variableRow layout.places v = .ok bytes :=
  ⟨_, Except.bind_eq_ok.mpr ⟨_, hstart.offsetOf_eq,
    Except.bind_eq_ok.mpr ⟨_, hstop.offsetOf_eq, rfl⟩⟩⟩

/-- A body whose tables refer to placed labels is written if its instructions, its handlers and its
stack map are. -/
theorem failsBy_payload {E : Error → Prop} (hlimit : ∀ limit, E (.limitExceeded limit))
    {P : PlacedHandler → Prop} (hbytes : FailsBy E p (instructionBytes layout.places layout))
    (hhandlers : ∀ h ∈ body.handlers, FailsBy E p (placeHandler layout.places h) ∧
      ∀ {q : ConstantPool} {placed : PlacedHandler}, q.WellFormed →
        Finds (placeHandler layout.places h) q (some placed) → P placed)
    (hstackMap : ∀ handlers : List PlacedHandler, (∀ h ∈ handlers, P h) →
      FailsBy E p (stackMap layout.places layout handlers method))
    (hresolves : ∀ l ∈ body.references, layout.Resolves l)
    (hattributes : ∀ a ∈ body.attributes, CodeAttribute.IsOther p a) :
    FailsBy E p (payload body method layout) := by
  have hlimits : ∀ e, (∃ limit, e = .limitExceeded limit) → E e := by
    rintro _ ⟨limit, rfl⟩
    exact hlimit limit
  obtain ⟨kept, hkept⟩ := exists_kept hattributes
  have htable (name : String) (limit : Nat → Limit) (rows : List Bytes) :
      FailsBy E p (tableAttribute name limit rows) := (limited_tableAttribute _ _ _).imp hlimits
  have hlines (length : Nat) : FailsBy E p (rows (lineRow layout.places length) body.lines) :=
    (limited_rows fun line hline =>
      exists_lineRow (hresolves _ (Body.mem_references_of_line hline)) length).imp hlimits
  have hvariables {vs : List Variable} (hvs : vs ⊆ body.localVariables ++ body.localVariableTypes) :
      FailsBy E p (rows (variableRow layout.places) vs) := by
    have hresolved {v : Variable} (hv : v ∈ vs) {l : Label} (hl : l ∈ [v.start, v.stop]) :
        layout.Resolves l := hresolves l (Body.mem_references_of_variable (hvs hv) hl)
    exact (limited_rows fun v hv =>
      exists_variableRow (hresolved hv (by simp)) (hresolved hv (by simp))).imp hlimits
  refine hbytes.andThen fun code => FailsBy.bind (.mapM fun h hh => (hhandlers h hh).1)
    (fun _ => ?steady) fun {q found} hq hwf hfound => FailsBy.mono ?_ hq
  case steady =>
    exact (steady_rows _ _).bind fun _ => (steady_tableAttribute _ _ _).bind fun _ =>
      (steady_rows _ _).bind fun _ => (steady_tableAttribute _ _ _).bind fun _ =>
      (steady_rows _ _).bind fun _ => (steady_tableAttribute _ _ _).bind fun _ =>
      (steady_stackMap _).bind fun _ => (steady_kept _).bind fun _ =>
      (steady_countBytes _ _).bind fun _ => (steady_ofExcept _).bind fun _ => .pure _
  have hplaced : ∀ placed ∈ found.filterMap id, P placed := by
    intro placed hmem
    obtain ⟨outcome, houtcome, rfl⟩ := List.mem_filterMap.mp hmem
    obtain ⟨h, hh, hfinds⟩ := ((finds_mapM steady_placeHandler hwf).mp hfound).exists_left houtcome
    exact (hhandlers h hh).2 hwf hfinds
  refine (hlines _).andThen fun _ => (htable _ _ _).andThen fun _ => ?_
  refine (hvariables (List.subset_append_left _ _)).andThen fun _ =>
    (htable _ _ _).andThen fun _ => ?_
  refine (hvariables (List.subset_append_right _ _)).andThen fun _ =>
    (htable _ _ _).andThen fun _ => ?_
  refine (hstackMap _ hplaced).andThen fun _ =>
    (FailsBy.lookUp (fun hq h => keptAttributes_mono hq h) hkept).andThen fun _ => ?_
  exact ((limited_countBytes _ _).imp hlimits).andThen fun _ =>
    ((limited_encodeList _).imp hlimits).andThen fun _ => .pure _

/-- Code that only pushes constants and returns is written with its tables if no handler guards
anything. -/
theorem limited_payload (hcode : ∀ e ∈ layout.placed, e.event.IsConstantCode)
    (hresolves : ∀ l ∈ body.references, layout.Resolves l)
    (hhandlers : ∀ h ∈ body.handlers, ¬layout.offset h.start < layout.offset h.stop)
    (hattributes : ∀ a ∈ body.attributes, CodeAttribute.IsOther p a) :
    Limited p (payload body method layout) := by
  have hbytes : Limited p (instructionBytes layout.places layout) :=
    (FailsBy.mapM fun e he => limited_eventBytes (hcode e he)).andThen fun _ => .pure _
  have hresolved {h : Handler} (hh : h ∈ body.handlers) {l : Label}
      (hl : l ∈ [h.start, h.stop, h.target]) : layout.Resolves l :=
    hresolves l (Body.mem_references_of_handler hh hl)
  refine failsBy_payload (P := fun _ => False) (fun limit => ⟨limit, rfl⟩) hbytes (fun h hh => ?_)
    (fun handlers hnone => ?_) hresolves hattributes
  · rw [placeHandler_of_not_lt (hresolved hh (by simp)) (hresolved hh (by simp))
      (hresolved hh (by simp)) (hhandlers h hh)]
    exact ⟨.pure none, fun _ hfinds => by cases finds_pure.mp hfinds⟩
  · obtain rfl : handlers = [] := List.eq_nil_iff_forall_not_mem.mpr hnone
    rw [stackMap_of_no_targets fun e he => (hcode e he).targets_eq]
    exact .pure []

end CodeWriter

/-- A body is written if its labels are in order, and it can be laid out and put down. -/
theorem Body.failsBy_encode {body : Body} {method : MethodContext} {E : Error → Prop}
    (hlimit : ∀ limit, E (.limitExceeded limit)) (hlabels : Except.FailsBy E body.checkLabels)
    (hlayout : FailsBy E p (Layout.ofBody body method))
    (hpayload : ∀ {q : ConstantPool} {layout : Layout}, p ≤ q → q.WellFormed →
      body.checkLabels = .ok () → Finds (Layout.ofBody body method) q layout →
        FailsBy E q (CodeWriter.payload body method layout)) :
    FailsBy E p (body.encode method) := by
  have hsteady (layout : Layout) : Steady (if layout.length > 65535 then
      throw (.limitExceeded (.codeLength layout.length method.className method.methodName))
    else CodeWriter.payload body method layout) :=
    .ite (.throw _) (CodeWriter.splits_payload body method layout).steady
  refine (CodeWriter.failsBy_ofExcept hlabels).bind
    (fun _ => (Layout.steady_ofEvents _ _).bind hsteady) fun {q _} hq _ hchecked => ?_
  refine (hlayout.mono hq).bind hsteady fun {q' layout} hq' hwf hfinds =>
    .ite (.throw (hlimit _)) ?_
  exact hpayload (ConstantPool.le_trans hq hq') hwf (CodeWriter.finds_ofExcept.mp hchecked) hfinds

end ClassPatch
