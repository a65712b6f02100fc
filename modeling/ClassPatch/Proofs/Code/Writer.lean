import ClassPatch.Proofs.Code.Placement

/-!
# Writing code attributes is steady

Whatever a writer of a code attribute has done once it would do again in the pool that it leaves,
and in every larger one, without adding to it. So a code attribute that has been written can be
taken apart as if it had been written in its last pool.
-/

namespace ClassPatch

open PoolM

namespace StackMap

variable {offsetOf : Label → Except Error Nat}

theorem steady_half (n : Nat) (limit : Nat → Limit) : Steady (half n limit) :=
  .ite (.pure _) (.throw _)

theorem steady_encodeType (t : VerificationType) : Steady (encodeType offsetOf t) := by
  cases t with
  | object name => exact (steady_classRef _).bind fun _ => .pure _
  | uninitialized site =>
    unfold encodeType
    dsimp only
    split
    · exact (steady_half _ _).bind fun _ => .pure _
    · exact .throw _
  | _ => exact .pure _

theorem steady_encodeTypes (types : List VerificationType) :
    Steady (encodeTypes offsetOf types) :=
  (Steady.mapM steady_encodeType _).bind fun _ => .pure _

theorem steady_encodeFull (delta : Bytes) (frame : Frame) :
    Steady (encodeFull offsetOf delta frame) :=
  (steady_half _ _).bind fun _ => (steady_encodeTypes _).bind fun _ =>
    (steady_half _ _).bind fun _ => (steady_encodeTypes _).bind fun _ => .pure _

theorem steady_encodeFrame (base : Base) (offset : Nat) (frame : Frame) :
    Steady (encodeFrame offsetOf base offset frame) := by
  unfold encodeFrame
  refine .ite ((Steady.throw _).bind fun _ => ?_) ?_
  all_goals
    refine (steady_half _ _).bind fun delta => ?_
    refine .ite (.pure _) (.ite ?_ (.ite ?_ (.ite (.pure _) (steady_encodeFull _ _))))
    · exact (steady_encodeTypes _).bind fun _ => .pure _
    · exact (steady_encodeTypes _).bind fun _ => .pure _

theorem steady_encode (frames : List (Nat × Frame)) (initial : Frame) :
    Steady (encode frames initial offsetOf) :=
  (steady_half _ _).bind fun _ =>
    (Steady.mapM (fun (base, offset, frame) => steady_encodeFrame base offset frame) _).bind
      fun _ => .pure _

end StackMap

namespace CodeWriter

variable {places : Layout.Places} {layout : Layout} {method : MethodContext}

theorem steady_ofExcept {α : Type} (x : Except Error α) : Steady (ofExcept x) := by
  cases x
  · exact .throw _
  · exact .pure _

theorem steady_countBytes (count : Nat) (limit : Nat → Limit) : Steady (countBytes count limit) :=
  .ite (.pure _) (.throw _)

theorem steady_eventBytes (e : PlacedEvent) : Steady (eventBytes places e) := by
  unfold eventBytes
  split
  · exact .pure _
  · exact (steady_ofExcept _).bind fun _ => Instruction.steady_bytes _ _ _

theorem steady_instructionBytes : Steady (instructionBytes places layout) :=
  (Steady.mapM steady_eventBytes _).bind fun _ => .pure _

theorem steady_placeHandler (h : Handler) : Steady (placeHandler places h) := by
  refine (steady_ofExcept _).bind fun _ => (steady_ofExcept _).bind fun _ =>
    (steady_ofExcept _).bind fun _ => .ite ?_ (.pure _)
  split
  · exact (steady_classRef _).bind fun _ => .pure _
  · exact .pure _

theorem steady_tableAttribute (name : String) (limit : Nat → Limit) (rows : List Bytes) :
    Steady (tableAttribute name limit rows) :=
  .ite (.pure _) ((steady_countBytes _ _).bind fun _ => (steady_text _).bind fun _ => .pure _)

theorem steady_rows {α : Type} (row : α → Except Error (Option Bytes)) (xs : List α) :
    Steady (rows row xs) :=
  (steady_ofExcept _).bind fun _ => .pure _

theorem steady_stackMap (handlers : List PlacedHandler) :
    Steady (stackMap places layout handlers method) := by
  unfold stackMap
  refine .ite (.pure _) ((steady_ofExcept _).bind fun frames => .ite (.pure _) ?_)
  exact (steady_ofExcept _).bind fun _ => (StackMap.steady_encode _ _).bind fun _ =>
    (steady_text _).bind fun _ => .pure _

theorem keptAttributes_mono {p q : ConstantPool} (hq : p ≤ q) {attributes kept : List Attribute}
    (h : keptAttributes p attributes = .ok kept) : keptAttributes q attributes = .ok kept := by
  obtain ⟨named, hnamed, h⟩ := Except.bind_eq_ok.mp h
  refine Except.bind_eq_ok.mpr ⟨named, ?_, h⟩
  refine Except.mapM_eq_ok.mpr (List.Forall₂.imp ?_ (Except.mapM_eq_ok.mp hnamed))
  intro a row hrow
  obtain ⟨name, hname, hrow⟩ := Except.bind_eq_ok.mp hrow
  exact Except.bind_eq_ok.mpr ⟨name, ConstantPool.text_mono hq hname, hrow⟩

/-- What a code attribute is made of. -/
structure Parts where
  code : Bytes
  handlers : List PlacedHandler
  lines : List Attribute
  localVariables : List Attribute
  localVariableTypes : List Attribute
  stackMap : List Attribute
  kept : List Attribute
  handlerCount : Bytes
  attributes : Bytes

/-- The bytes of a code attribute. -/
def Parts.bytes (parts : Parts) (layout : Layout) : Bytes :=
  Word.encode layout.maxStack ++ Word.encode layout.maxLocals ++
    Word.encode (UInt32.ofNat parts.code.length) ++ parts.code ++
    parts.handlerCount ++ parts.handlers.flatMap handlerBytes ++ parts.attributes

/-- The table of some rows is found in the pool. -/
def FindsTable {α : Type} (p : ConstantPool) (name : String) (limit : Nat → Limit)
    (row : α → Except Error (Option Bytes)) (xs : List α) (table : List Attribute) : Prop :=
  ∃ bytes, xs.mapM row = .ok bytes ∧ Finds (tableAttribute name limit (bytes.filterMap id)) p table

/-- The parts are those that the writer makes of a body and its layout, all found in the pool. -/
structure Parts.AreOf (parts : Parts) (body : Body) (method : MethodContext) (layout : Layout)
    (p : ConstantPool) : Prop where
  code : Finds (instructionBytes layout.places layout) p parts.code
  handlers : ∃ placed, Finds (body.handlers.mapM (placeHandler layout.places)) p placed ∧
    parts.handlers = placed.filterMap id
  lines : FindsTable p CodeAttribute.lineTable .lines
    (lineRow layout.places parts.code.length) body.lines parts.lines
  localVariables : FindsTable p CodeAttribute.variableTable .localVariables
    (variableRow layout.places) body.localVariables parts.localVariables
  localVariableTypes : FindsTable p CodeAttribute.variableTypeTable .localVariables
    (variableRow layout.places) body.localVariableTypes parts.localVariableTypes
  stackMap : Finds (CodeWriter.stackMap layout.places layout parts.handlers method) p parts.stackMap
  kept : keptAttributes p body.attributes = .ok parts.kept
  handlerCount : Finds (countBytes parts.handlers.length .handlers) p parts.handlerCount
  attributes : Attribute.encodeList (parts.lines ++ parts.localVariables ++
    parts.localVariableTypes ++ parts.stackMap ++ parts.kept) = .ok parts.attributes

theorem finds_ofExcept {α : Type} {x : Except Error α} {y : α} {p : ConstantPool} :
    Finds (ofExcept x) p y ↔ x = .ok y := by
  cases x with
  | error e => exact iff_of_false not_finds_throw nofun
  | ok z =>
    rw [Except.ok.injEq]
    exact finds_pure

theorem finds_rows {α : Type} {row : α → Except Error (Option Bytes)} {xs : List α}
    {bytes : List Bytes} {p : ConstantPool} :
    Finds (rows row xs) p bytes ↔ ∃ all, xs.mapM row = .ok all ∧ bytes = all.filterMap id := by
  constructor
  · intro h
    obtain ⟨all, p₁, hall, h⟩ := EStateM.bind_eq_ok.mp h
    obtain ⟨rfl, rfl⟩ := EStateM.pure_eq_ok.mp h
    exact ⟨all, finds_ofExcept.mp hall, rfl⟩
  · rintro ⟨all, hall, rfl⟩
    exact EStateM.bind_eq_ok.mpr ⟨all, p, finds_ofExcept.mpr hall, rfl⟩

theorem finds_lookUp {α : Type} {f : ConstantPool → Except Error α} {y : α} {p : ConstantPool} :
    Finds (lookUp f) p y ↔ f p = .ok y := by
  cases hf : f p with
  | error e => simp [Finds, lookUp_of_error hf]
  | ok x => simp [Finds, lookUp_of_ok hf]

theorem steady_kept (attributes : List Attribute) :
    Steady (lookUp fun pool => keptAttributes pool attributes) :=
  .lookUp fun hq h => keptAttributes_mono hq h

/-- A code attribute is found in a pool exactly if all its parts are. -/
theorem splits_payload (body : Body) (method : MethodContext) (layout : Layout) :
    Splits (payload body method layout) fun p bytes =>
    ∃ parts : Parts, parts.AreOf body method layout p ∧ bytes = parts.bytes layout := by
  have h : Splits (payload body method layout) _ :=
    steady_instructionBytes.splits.bind fun _ =>
    (Steady.mapM steady_placeHandler _).splits.bind fun _ =>
    (steady_rows _ _).splits.bind fun _ => (steady_tableAttribute _ _ _).splits.bind fun _ =>
    (steady_rows _ _).splits.bind fun _ => (steady_tableAttribute _ _ _).splits.bind fun _ =>
    (steady_rows _ _).splits.bind fun _ => (steady_tableAttribute _ _ _).splits.bind fun _ =>
    (steady_stackMap _).splits.bind fun _ =>
    (steady_kept _).splits.bind fun _ =>
    (steady_countBytes _ _).splits.bind fun _ =>
    (steady_ofExcept _).splits.bind fun _ => .pure _
  refine ⟨h.steady, fun hp => (h.finds hp).trans ?_⟩
  simp only [finds_rows, finds_lookUp, finds_ofExcept]
  constructor
  · rintro ⟨code, hcode, placed, hplaced, _, ⟨_, hlines, rfl⟩, lines, hlines', _,
      ⟨_, hvariables, rfl⟩, locals, hvariables', _, ⟨_, htypes, rfl⟩, types, htypes',
      stackMap, hstackMap, kept, hkept, count, hcount, attributes, hattributes, rfl⟩
    exact ⟨⟨code, _, lines, locals, types, stackMap, kept, count, attributes⟩,
      ⟨hcode, ⟨placed, hplaced, rfl⟩, ⟨_, hlines, hlines'⟩, ⟨_, hvariables, hvariables'⟩,
        ⟨_, htypes, htypes'⟩, hstackMap, hkept, hcount, hattributes⟩, rfl⟩
  · rintro ⟨⟨code, handlers, lines, locals, types, stackMap, kept, count, attributes⟩,
      ⟨hcode, ⟨placed, hplaced, rfl⟩, ⟨_, hlines, hlines'⟩, ⟨_, hvariables, hvariables'⟩,
        ⟨_, htypes, htypes'⟩, hstackMap, hkept, hcount, hattributes⟩, rfl⟩
    exact ⟨code, hcode, placed, hplaced, _, ⟨_, hlines, rfl⟩, lines, hlines', _,
      ⟨_, hvariables, rfl⟩, locals, hvariables', _, ⟨_, htypes, rfl⟩, types, htypes',
      stackMap, hstackMap, kept, hkept, count, hcount, attributes, hattributes, rfl⟩

end CodeWriter

/-- A body is encoded in three steps: its labels are checked, it is laid out and it is written. -/
theorem Body.splits_encode (body : Body) (method : MethodContext) :
    Splits (body.encode method) fun p bytes => body.checkLabels = .ok () ∧ ∃ layout : Layout,
      Finds (Layout.ofBody body method) p layout ∧ layout.length ≤ 65535 ∧
      ∃ parts : CodeWriter.Parts, parts.AreOf body method layout p ∧
        bytes = parts.bytes layout := by
  have hrest (layout : Layout) : Splits (if layout.length > 65535 then
      throw (.limitExceeded (.codeLength layout.length method.className method.methodName))
    else CodeWriter.payload body method layout) fun p bytes => layout.length ≤ 65535 ∧
      ∃ parts : CodeWriter.Parts, parts.AreOf body method layout p ∧
        bytes = parts.bytes layout := by
    have hpayload := CodeWriter.splits_payload body method layout
    split
    · rename_i hlong
      exact ⟨.throw _, fun _ => iff_of_false not_finds_throw fun h => absurd h.1 (by omega)⟩
    · rename_i hshort
      exact ⟨hpayload.steady, fun hp => (hpayload.finds hp).trans
        (iff_and_self.mpr fun _ => Nat.not_lt.mp hshort)⟩
  have h : Splits (body.encode method) _ :=
    (CodeWriter.steady_ofExcept _).splits.bind fun _ =>
    (Layout.steady_ofEvents _ _).splits.bind fun layout => hrest layout
  refine ⟨h.steady, fun hp => (h.finds hp).trans ?_⟩
  simp only [CodeWriter.finds_ofExcept]
  exact ⟨fun ⟨_, hlabels, h⟩ => ⟨hlabels, h⟩, fun ⟨hlabels, h⟩ => ⟨(), hlabels, h⟩⟩

end ClassPatch
