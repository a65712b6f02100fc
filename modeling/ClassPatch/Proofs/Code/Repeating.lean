import ClassPatch.Proofs.Code.FrameTable
import ClassPatch.Proofs.Code.Relayout
import ClassPatch.Proofs.Flow.Consistency
import ClassPatch.Proofs.Flow.Renaming

/-!
# What is read back is written as before

The layout of a body that is read back has everything where it has been. So the same instructions,
tables and frames are written again, with nothing new in the pool. Only the bounds on the stack and
the locals are those of the new analysis.
-/

namespace ClassPatch

open PoolM CodeWriter

namespace Layout

variable {layout : Layout} {p : ConstantPool}

/-! ### Parts of a code attribute -/

/-- Only instructions are written, labels are not. -/
theorem finds_instructionBytes_iff (hp : p.WellFormed) {code : Bytes} :
    Finds (instructionBytes layout.places layout) p code ↔ ∃ rows,
      List.Forall₂ (fun e row => Finds (eventBytes layout.places e) p row)
        (placedInstrs layout.placed) rows ∧ code = rows.flatten := by
  have hskip (placed : List PlacedEvent) (code : Bytes) :
      (∃ rows, List.Forall₂ (fun e row => Finds (eventBytes layout.places e) p row) placed rows ∧
        code = rows.flatten) ↔ ∃ rows,
      List.Forall₂ (fun e row => Finds (eventBytes layout.places e) p row)
      (placedInstrs placed) rows ∧
        code = rows.flatten := by
    induction placed generalizing code with
    | nil => exact Iff.rfl
    | cons e placed ih =>
      cases hevent : e.event with
      | label l =>
        have hrest : placedInstrs (e :: placed) = placedInstrs placed := by
          simp [placedInstrs, hevent, Event.isLabel]
        have hnone (row : Bytes) : Finds (eventBytes layout.places e) p row ↔ row = [] := by
          simp only [eventBytes, hevent]
          exact finds_pure.trans eq_comm
        rw [hrest, ← ih code]
        constructor
        · rintro ⟨rows, hrows, rfl⟩
          obtain ⟨row, rest, hrow, hrest, rfl⟩ := List.forall₂_cons_left_iff.mp hrows
          exact ⟨rest, hrest, by rw [(hnone row).mp hrow]; rfl⟩
        · rintro ⟨rows, hrows, rfl⟩
          exact ⟨[] :: rows, .cons ((hnone _).mpr rfl) hrows, rfl⟩
      | instr i =>
        have hrest : placedInstrs (e :: placed) = e :: placedInstrs placed := by
          simp [placedInstrs, hevent, Event.isLabel]
        rw [hrest]
        constructor
        · rintro ⟨rows, hrows, rfl⟩
          obtain ⟨row, rest, hrow, hrest, rfl⟩ := List.forall₂_cons_left_iff.mp hrows
          obtain ⟨rest', hrest', hcode⟩ := (ih rest.flatten).mp ⟨rest, hrest, rfl⟩
          exact ⟨row :: rest', .cons hrow hrest', congrArg (row ++ ·) hcode⟩
        · rintro ⟨rows, hrows, rfl⟩
          obtain ⟨row, rest, hrow, hrest, rfl⟩ := List.forall₂_cons_left_iff.mp hrows
          obtain ⟨rest', hrest', hcode⟩ := (ih rest.flatten).mpr ⟨rest, hrest, rfl⟩
          exact ⟨row :: rest', .cons hrow hrest', congrArg (row ++ ·) hcode⟩
  rw [← hskip]
  refine (finds_bind (Steady.mapM steady_eventBytes _) (fun _ => .pure _) hp).trans ?_
  exact exists_congr fun rows =>
    and_congr (finds_mapM steady_eventBytes hp) (finds_pure.trans eq_comm)

/-- How frames are written. -/
def writeFrames (offsetOf : Label → Except Error Nat) (method : MethodContext)
    (frames : List (Nat × Frame)) : PoolM (List Attribute) :=
  if frames.isEmpty then return []
  else do
    let initial ← CodeWriter.ofExcept (Frame.entry method)
    let payload ← StackMap.encode frames initial offsetOf
    return [{ name := ← PoolM.text CodeAttribute.stackMapTable, payload }]

/-- Renamed frames are written as before. -/
theorem writeFrames_map {f : Label → Label} {offsetOf offsetOf' : Label → Except Error Nat}
    {method : MethodContext} {frames : List (Nat × Frame)}
    (hf : Separates (fun l => ∃ row ∈ frames, l ∈ row.2.sites) f)
    (hoffsets : ∀ row ∈ frames, ∀ l ∈ row.2.sites, offsetOf' (f l) = offsetOf l) :
    writeFrames offsetOf' method (frames.map fun (offset, frame) => (offset, frame.map f)) =
      writeFrames offsetOf method frames := by
  unfold writeFrames
  rw [List.isEmpty_map]
  split
  · rfl
  cases hentry : Frame.entry method with
  | error e =>
    have hfails {α : Type} (next : Frame → PoolM α) :
        (CodeWriter.ofExcept (.error e) >>= next) = throw e := rfl
    rw [hfails, hfails]
  | ok initial =>
    simp only [CodeWriter.ofExcept, pure_bind]
    have hsites : ∀ l, (∃ row ∈ frames, l ∈ row.2.sites) → offsetOf' (f l) = offsetOf l := by
      rintro l ⟨row, hrow, hl⟩
      exact hoffsets row hrow l hl
    rw [StackMap.encode_map hf hsites
      (fun row hrow => row.2.knows_sites.mono fun l hl => ⟨row, hrow, hl⟩)
      (Frame.knows_entry hentry)]

theorem stackMap_eq {handlers : List PlacedHandler} {method : MethodContext}
    {frames : List (Nat × Frame)} (h : layout.HasFrames handlers method frames) :
    stackMap layout.places layout handlers method =
      writeFrames layout.places.offsetOf method frames := by
  unfold HasFrames at h
  unfold stackMap
  split at h
  · rename_i hold
    subst h
    rw [if_pos hold]
    rfl
  · rename_i hnew
    rw [if_neg hnew]
    change (CodeWriter.ofExcept (CodeWriter.frames layout.places (layout.jumpTargets handlers)) >>=
      writeFrames layout.places.offsetOf method) = _
    rw [h]
    rfl

end Layout

/-! ### Tables -/

/-- Rows that have been read are written again. -/
theorem CodeWriter.FindsTable.again {α β ρ : Type} {p : ConstantPool} {name : String}
    {limit : Nat → Limit} {row : α → Except Error (Option Bytes)}
    {row' : β → Except Error (Option Bytes)} {xs : List α} {table : List Attribute}
    (row? : α → Option ρ) (entry : ρ → β) (bytes : ρ → Bytes)
    (h : FindsTable p name limit row xs table) (hrow : ∀ x b, row x = .ok b →
      b = (row? x).map bytes)
    (hagain : ∀ r ∈ xs.filterMap row?, row' (entry r) = .ok (some (bytes r))) :
    FindsTable p name limit row' ((xs.filterMap row?).map entry) table := by
  obtain ⟨all, hall, htable⟩ := h
  have hsame : all.filterMap id = (xs.filterMap row?).map bytes := by
    have hrows := (Except.mapM_eq_ok.mp hall).imp fun x b hb => hrow x b hb
    clear hall htable hagain
    induction hrows with
    | nil => rfl
    | @cons x b xs all hb _ ih =>
      subst hb
      cases hx : row? x with
      | none => simpa [hx] using ih
      | some r => simpa [hx] using ih
  refine ⟨(xs.filterMap row?).map fun r => some (bytes r), ?_, ?_⟩
  · refine Except.mapM_eq_ok.mpr (List.forall₂_map_left_iff.mpr (List.forall₂_map_right_iff.mpr ?_))
    exact List.forall₂_same.mpr hagain
  · have hid : ((xs.filterMap row?).map fun r => some (bytes r)).filterMap id =
        (xs.filterMap row?).map bytes := by
      simp [List.filterMap_map]
    rw [hid, ← hsame]
    exact htable

/-- The attributes that are kept are kept again. -/
theorem keptAttributes_again {p : ConstantPool} {attributes kept : List Attribute}
    (h : keptAttributes p attributes = .ok kept) : keptAttributes p kept = .ok kept := by
  obtain ⟨named, hnamed, h⟩ := Except.bind_eq_ok.mp h
  obtain rfl := Except.pure_eq_ok.mp h
  refine Except.bind_eq_ok.mpr ⟨named.filter fun row => !dropped.contains row.1, ?_, ?_⟩
  · refine Except.mapM_eq_ok.mpr (List.forall₂_map_left_iff.mpr (List.forall₂_same.mpr ?_))
    intro row hrow
    obtain ⟨a, -, ha⟩ :=
      (Except.mapM_eq_ok.mp hnamed).exists_left (List.mem_of_mem_filter hrow)
    obtain ⟨name, hname, ha⟩ := Except.bind_eq_ok.mp ha
    obtain rfl := Except.pure_eq_ok.mp ha
    exact Except.bind_eq_ok.mpr ⟨name, hname, rfl⟩
  · refine Except.pure_eq_ok.mpr ?_
    rw [List.filter_eq_self.mpr]
    intro row hrow
    exact (List.mem_filter.mp hrow).2

namespace Layout.Repeats

variable {layout layout' : Layout} {table : LabelTable} {marks : List Nat}
  (h : layout.Repeats table marks layout')
include h

theorem offsetOf_labelAt {offset : Nat} (hmark : offset ∈ marks) :
    layout'.places.offsetOf (table.labelAt offset) = .ok offset := by
  obtain ⟨e, he, rfl⟩ := h.marked offset hmark
  exact Except.bind_eq_ok.mpr ⟨e, find_eq_ok.mpr he, rfl⟩

theorem offset_labelAt {offset : Nat} (hmark : offset ∈ marks) :
    layout'.offset (table.labelAt offset) = offset :=
  offset_of_offsetOf (h.offsetOf_labelAt hmark)

theorem variables_again {name : String} {vs : List Variable} {found : List Attribute}
    (hfound : FindsTable p name .localVariables (variableRow layout.places) vs found)
    (hmarks : ∀ row ∈ vs.filterMap layout.variableRow?, row.start ∈ marks ∧ row.stop ∈ marks) :
    FindsTable p name .localVariables (variableRow layout'.places)
      ((vs.filterMap layout.variableRow?).map fun row => (⟨table.labelAt row.start,
        table.labelAt row.stop, row.name, row.descriptor, row.slot⟩ : Variable)) found := by
  refine hfound.again layout.variableRow? _
    (fun row => offsetBytes row.start ++ offsetBytes (row.stop - row.start) ++
      Word.encode row.name ++ Word.encode row.descriptor ++ Word.encode row.slot)
    (fun v b hb => ?_) fun row hrow => ?_
  · obtain ⟨start, hstart, hb⟩ := Except.bind_eq_ok.mp hb
    obtain ⟨stop, hstop, hb⟩ := Except.bind_eq_ok.mp hb
    obtain rfl := Layout.offset_of_offsetOf hstart
    obtain rfl := Layout.offset_of_offsetOf hstop
    obtain rfl := Except.pure_eq_ok.mp hb
    rw [Layout.variableRow?]
    split <;> rfl
  · obtain ⟨hstart, hstop⟩ := hmarks row hrow
    refine Except.bind_eq_ok.mpr ⟨row.start, h.offsetOf_labelAt hstart,
      Except.bind_eq_ok.mpr ⟨row.stop, h.offsetOf_labelAt hstop, ?_⟩⟩
    obtain ⟨v, -, hrow⟩ := List.mem_filterMap.mp hrow
    unfold Layout.variableRow? at hrow
    split at hrow
    · rename_i hlt
      obtain rfl := Option.some.inj hrow
      exact congrArg Except.ok (if_pos hlt)
    · cases hrow

end Layout.Repeats

namespace Body.ReadBack

variable {body : Body} {method : MethodContext} {p : ConstantPool} {code : Bytes} {layout : Layout}
  {parts : Parts} {marks : List Nat} {table : LabelTable} {frames : List (Nat × Frame)}
  {layout' : Layout}
  (h : body.ReadBack method p code layout parts marks table frames)
  (hrep : layout.Repeats table marks layout')
include h hrep

theorem finds_code (hp : p.WellFormed) :
    Finds (instructionBytes layout'.places layout') p parts.code := by
  obtain ⟨rows, hrows, hcode⟩ := (Layout.finds_instructionBytes_iff hp).mp h.areOf.code
  refine (Layout.finds_instructionBytes_iff hp).mpr ⟨rows, ?_, hcode⟩
  have hmatches := hrep.instrs.imp_of_mem (S := fun a c => a ∈ layout.placed ∧
    (∃ i, a.event = .instr i) ∧ a.Matches (layout.relabel table) c) fun a ha c _ hmatch => by
      obtain ⟨hmem, hlabel⟩ := List.mem_filter.mp ha
      refine ⟨hmem, ?_, hmatch⟩
      cases hevent : a.event with
      | label l => simp [hevent, Event.isLabel] at hlabel
      | instr i => exact ⟨i, rfl⟩
  refine (hmatches.join hrows).imp fun c row hrow => ?_
  obtain ⟨a, ⟨ha, ⟨i, hi⟩, hmatch⟩, hrow⟩ := hrow
  have hevent : c.event = .instr (i.map (layout.relabel table)) := by
    rw [hmatch.sized.event, hi]; rfl
  simp only [eventBytes, hi] at hrow
  simp only [eventBytes, hevent, hmatch.offset, hmatch.sized.wide]
  obtain ⟨j, hj, hbytes⟩ := (finds_bind (steady_ofExcept _)
    (fun i => Instruction.steady_bytes _ _ i) hp).mp hrow
  obtain rfl := Instruction.eq_map_of_mapTargets (g := layout.offset) (finds_ofExcept.mp hj)
    fun _ _ hl => Layout.offset_of_offsetOf hl
  have hoffset {l : Label} (hl : l ∈ i.targets) :
      layout'.places.offsetOf (layout.relabel table l) = .ok (layout.offset l) :=
    hrep.offsetOf_labelAt (h.mark_of_target ha (by rw [hi]; exact hl)).2
  have hagain : (i.map (layout.relabel table)).mapTargets layout'.places.offsetOf =
      .ok (i.map layout.offset) := by
    rw [Instruction.mapTargets_eq_map (g := layout'.offset), Instruction.map_map]
    · exact congrArg Except.ok (Instruction.map_congr fun l hl =>
        Layout.offset_of_offsetOf (hoffset hl))
    · intro l' hl'
      rw [Instruction.targets_map] at hl'
      obtain ⟨l, hl, rfl⟩ := List.mem_map.mp hl'
      rw [Layout.offset_of_offsetOf (hoffset hl), hoffset hl]
  exact EStateM.bind_eq_ok.mpr ⟨_, p, finds_ofExcept.mpr hagain, hbytes⟩

theorem lines_again : FindsTable p CodeAttribute.lineTable .lines
    (lineRow layout'.places parts.code.length) (layout.reread body parts p table frames).lines
    parts.lines := by
  have hlength := h.written.length_eq
  refine h.areOf.lines.again layout.lineRow?
    (fun row => (⟨table.labelAt row.start, row.number⟩ : Line))
    (fun row => offsetBytes row.start ++ Word.encode row.number)
    (fun line b hb => ?_) fun row hrow => ?_
  · obtain ⟨offset, hoffset, hb⟩ := Except.bind_eq_ok.mp hb
    obtain rfl := Layout.offset_of_offsetOf hoffset
    obtain rfl := Except.pure_eq_ok.mp hb
    rw [hlength, Layout.lineRow?]
    split <;> rfl
  · refine Except.bind_eq_ok.mpr
      ⟨row.start, hrep.offsetOf_labelAt (h.hasMarks.lines row hrow), ?_⟩
    obtain ⟨line, -, hrow⟩ := List.mem_filterMap.mp hrow
    unfold Layout.lineRow? at hrow
    split at hrow
    · rename_i hlt
      obtain rfl := Option.some.inj hrow
      rw [hlength]
      exact congrArg Except.ok (if_pos hlt)
    · cases hrow

omit hrep

/-! ### Handlers -/

/-- In front of a mark inside the code not all instructions stand. -/
theorem numberOf_lt {offset : Nat} (hmark : offset ∈ marks) (hlt : offset < layout.length) :
    layout.code.numberOf offset < layout.code.length := by
  obtain ⟨row, hrow, rfl⟩ := List.mem_map.mp
    ((h.boundary hmark).resolve_left (Nat.ne_of_lt hlt))
  obtain ⟨before, after, hsplit⟩ := List.append_of_mem hrow
  rw [Disassembly.numberOf_of_split h.sorted hsplit, hsplit]
  simp

/-! ### Frames -/

/-- The frames that are read back stand in the order of their offsets, where control jumps to. -/
theorem frames_spec (hp : p.WellFormed) : (frames.map (·.1)).Pairwise (· < ·) ∧
    (¬method.majorVersion < 50 → ∀ offset, offset ∈ frames.map (·.1) ↔
      ∃ l ∈ layout.jumpTargets parts.handlers, layout.offset l = offset) := by
  have hframes := h.hasFrames
  unfold Layout.HasFrames at hframes
  split at hframes
  · rename_i hold
    subst hframes
    exact ⟨List.Pairwise.nil, fun hnew => absurd hold hnew⟩
  · obtain ⟨hsorted, hmem⟩ :=
      Layout.frames_spec hframes fun l hl => (h.emittedAs hp).reached_of_jumpTarget hp hl
    exact ⟨hsorted, fun _ => hmem⟩

end Body.ReadBack

/-- A placed handler that is written as another one. -/
structure CodeWriter.PlacedHandler.Copies (table : LabelTable) (a c : PlacedHandler) : Prop where
  start : c.start = a.start
  stop : c.stop = a.stop
  catchType : c.catchType = a.catchType
  offset : c.target.offset = a.target.offset
  event : c.target.event = .label (table.labelAt a.target.offset)
  reached : c.target.state.isSome = true

/-- How what is read back has been laid out again. -/
structure Body.LaidAgain (body : Body) (method : MethodContext) (p : ConstantPool) (code : Bytes)
    (layout : Layout) (parts : Parts) (marks : List Nat) (table : LabelTable)
    (frames : List (Nat × Frame)) (layout' : Layout) (solution : FlowSolution)
    (sized : List SizedEvent) : Prop extends
    body.ReadBack method p code layout parts marks table frames where
  repeats : layout.Repeats table marks layout'
  ofBodyAgain : Finds (Layout.ofBody (layout.reread body parts p table frames) method) p layout'
  isOf : layout'.IsOf (layout.reread body parts p table frames) method
    ((layout.reread body parts p table frames).events.map (⟨·, false⟩)) solution sized p
  placed : layout'.placed.map (·.event) = (layout.reread body parts p table frames).events

namespace Body.LaidAgain

variable {body : Body} {method : MethodContext} {p : ConstantPool} {code : Bytes} {layout : Layout}
  {parts : Parts} {marks : List Nat} {table : LabelTable} {frames : List (Nat × Frame)}
  {layout' : Layout} {solution : FlowSolution} {sized : List SizedEvent}
  (h : body.LaidAgain method p code layout parts marks table frames layout' solution sized)
include h

theorem follows : solution.Follows (layout.reread body parts p table frames).events
    (layout.reread body parts p table frames).handlers := by
  have hfollows := FlowSolution.follows h.isOf.analyzed
  rwa [Layout.map_event_plain] at hfollows

/-- Control comes to every mark inside the code. -/
theorem reached_of_mark (hp : p.WellFormed) {offset : Nat} (hmark : offset ∈ marks)
    (hlt : offset < layout.length) :
    ∃ e, layout'.places[table.labelAt offset]? = some e ∧ e.offset = offset ∧
      e.state.isSome = true := by
  obtain ⟨e, he, hoffset⟩ := h.repeats.marked offset hmark
  refine ⟨e, he, hoffset, (h.isOf.reached_iff hp he).mpr ?_⟩
  rw [Layout.map_event_plain]
  refine h.reaches_reread hp ?_
  rw [h.landing_labelAt hmark, Layout.instructions_reread, List.length_map, ← Layout.length_codeOf,
    ← Layout.code_eq]
  exact h.numberOf_lt hmark hlt

theorem exists_copy (hp : p.WellFormed) {placed : PlacedHandler}
    (hplaced : placed ∈ parts.handlers) : ∃ copy, Finds (placeHandler layout'.places {
      start := table.labelAt placed.start
      stop := table.labelAt placed.stop
      target := table.labelAt placed.target.offset
      catchType := if placed.catchType = 0 then none
        else (p.className placed.catchType).toOption }) p (some copy) ∧
          placed.Copies table copy := by
  obtain ⟨handler, -, hhandles⟩ := Layout.handles_of_mem hp h.areOf hplaced
  obtain ⟨hstart, hstop, htarget⟩ := h.hasMarks.handlers placed hplaced
  obtain ⟨e, he, hoffset, hreached⟩ := h.reached_of_mark hp htarget
    (h.made.offset_lt h.written.size_pos (Layout.mem_of_places hhandles.target).1 hhandles.reached)
  refine ⟨⟨placed.start, placed.stop, e, placed.catchType⟩, ?_,
    rfl, rfl, rfl, hoffset, (Layout.mem_of_places he).2, hreached⟩
  refine EStateM.bind_eq_ok.mpr ⟨_, p, finds_ofExcept.mpr (h.repeats.offsetOf_labelAt hstart), ?_⟩
  refine EStateM.bind_eq_ok.mpr ⟨_, p, finds_ofExcept.mpr (h.repeats.offsetOf_labelAt hstop), ?_⟩
  refine EStateM.bind_eq_ok.mpr ⟨_, p, finds_ofExcept.mpr (Layout.find_eq_ok.mpr he), ?_⟩
  rw [if_pos (by simp [hhandles.lt, hreached])]
  have hcatch := hhandles.catchType
  split at hcatch
  · rw [hcatch]
    rfl
  · obtain ⟨hne, hfound⟩ := hcatch
    have hname := className_of_classRef hp hfound (ConstantPool.le_refl p)
    simp only [if_neg hne, hname, Except.toOption]
    exact EStateM.bind_eq_ok.mpr ⟨_, p, hfound, rfl⟩

/-- The handlers are placed again. -/
theorem exists_copies (hp : p.WellFormed) : ∃ copies,
    Finds ((layout.reread body parts p table frames).handlers.mapM (placeHandler layout'.places)) p
      (copies.map some) ∧ List.Forall₂ (PlacedHandler.Copies table) parts.handlers copies := by
  obtain ⟨copies, hcopies⟩ := List.exists_forall₂ fun placed hplaced => h.exists_copy hp hplaced
  refine ⟨copies, (finds_mapM steady_placeHandler hp).mpr ?_, hcopies.imp fun _ _ hcopy => hcopy.2⟩
  refine List.forall₂_map_left_iff.mpr (List.forall₂_map_right_iff.mpr ?_)
  exact hcopies.imp fun _ _ hcopy => hcopy.1

omit h in
/-- What is written of handlers and of their copies is the same. -/
theorem flatMap_handlerBytes {handlers copies : List PlacedHandler}
    (hcopies : List.Forall₂ (PlacedHandler.Copies table) handlers copies) :
    copies.flatMap handlerBytes = handlers.flatMap handlerBytes :=
  hcopies.flatMap_eq fun a _ c _ hcopy => by
    simp only [handlerBytes, hcopy.start, hcopy.stop, hcopy.offset, hcopy.catchType]

end Body.LaidAgain

/-! ### Rows of one label -/

/-- No label stands directly behind another one. -/
def LoneLabels (events : List Event) : Prop :=
  ∀ k l, events[k]? = some (.label l) → ∀ l', events[k + 1]? ≠ some (.label l')

theorem Disassembly.loneLabels_rows (code : Disassembly) (table : LabelTable) (length : Nat) :
    LoneLabels (code.rows table ++ placedAt table length) := by
  have hplaced (offset : Nat) :
      placedAt table offset = [] ∨ ∃ l, placedAt table offset = [.label l] := by
    unfold placedAt
    cases table.get? offset <;> simp
  induction code with
  | nil =>
    intro k l hk l' hk'
    rcases hplaced length with hnone | ⟨l₀, hone⟩
    · simp [rows, hnone] at hk
    · simp [rows, hone] at hk'
  | cons row code ih =>
    intro k l hk l' hk'
    have hrows : rows (row :: code) table ++ placedAt table length = placedAt table row.1 ++
        .instr (row.2.map table.labelAt) :: (rows code table ++ placedAt table length) := by
      simp [rows]
    rw [hrows] at hk hk'
    rcases hplaced row.1 with hnone | ⟨l₀, hone⟩
    · rw [hnone, List.nil_append] at hk hk'
      rcases k with _ | k
      · simp at hk
      · exact ih k l (by simpa using hk) l' (by simpa using hk')
    · rw [hone, List.singleton_append] at hk hk'
      rcases k with _ | _ | k
      · simp at hk'
      · simp at hk
      · exact ih k l (by simpa using hk) l' (by simpa using hk')

/-- A label that stands alone means its own position. -/
theorem LoneLabels.means_iff {events : List Event} (h : LoneLabels events) {l : Label} {r : Nat} :
    Means events l r ↔ events[r]? = some (.label l) := by
  constructor
  · rintro ⟨i, hi, hrow⟩
    rcases Nat.eq_or_lt_of_le hrow.le with rfl | hlt
    · exact hi
    · obtain ⟨l', hl'⟩ := hrow.labels (i - 1) (by omega) (by omega)
      exact absurd
        (show events[i - 1 + 1]? = some (.label l) by rwa [Nat.sub_add_cancel (by omega)])
        (h (i - 1) l' hl' l)
  · intro hr
    refine ⟨r, hr, fun k hk => ?_, Nat.le_refl _, fun k hk hk' => absurd hk' (by omega)⟩
    subst hk
    have hlt : k < events.length :=
      Nat.lt_of_succ_lt (List.getElem?_eq_some_iff.mp hr).1
    cases hk : events[k] with
    | label l' => exact absurd hr (h k l' (by rw [List.getElem?_eq_getElem hlt, hk]) l)
    | instr i => exact ⟨i, by rw [List.getElem?_eq_getElem hlt, hk]⟩

/-! ### Frames -/

/-- Two lists of frames in the order of their offsets are the same if they have the same ones. -/
theorem eq_of_increasing {α : Type} {rows rows' : List (Nat × α)}
    (h : (rows.map (·.1)).Pairwise (· < ·)) (h' : (rows'.map (·.1)).Pairwise (· < ·))
    (hmem : ∀ row, row ∈ rows ↔ row ∈ rows') : rows = rows' := by
  rw [List.pairwise_map] at h h'
  have hnodup {rows : List (Nat × α)} (h : rows.Pairwise fun a b => a.1 < b.1) : rows.Nodup :=
    h.imp fun hlt heq => Nat.ne_of_lt hlt (congrArg Prod.fst heq)
  refine List.Perm.eq_of_pairwise (fun a b _ _ hab hba => ?_) h h'
    ((List.perm_ext_iff_of_nodup (hnodup h) (hnodup h')).mpr hmem)
  exact absurd hba (Nat.lt_asymm hab)

namespace Body.LaidAgain

variable {body : Body} {method : MethodContext} {p : ConstantPool} {code : Bytes} {layout : Layout}
  {parts : Parts} {marks : List Nat} {table : LabelTable} {frames : List (Nat × Frame)}
  {layout' : Layout} {solution : FlowSolution} {sized : List SizedEvent}
  (h : body.LaidAgain method p code layout parts marks table frames layout' solution sized)
include h

/-- Control comes to a label with the frame that has been read back for it. -/
theorem state_of_frame (hp : p.WellFormed) {row : Nat × Frame} (hrow : row ∈ frames)
    {e : PlacedEvent} (he : layout'.places[table.labelAt row.1]? = some e) {s : FlowState}
    (hs : e.state = some s) : s = .ofFrame (row.2.map (layout.relabel table)) := by
  obtain ⟨hmem, hevent⟩ := Layout.mem_of_places he
  obtain ⟨i, hi, hstate, -⟩ := h.isOf.exists_position hp hmem
  rw [Layout.map_event_plain, hevent] at hi
  have hanalyzed := h.isOf.analyzed
  rw [Layout.map_event_plain] at hanalyzed
  obtain ⟨g, entry, progress, hg, -, -, hsolution⟩ := FlowSolution.exists_isOf hanalyzed
  have hlone : LoneLabels (layout.reread body parts p table frames).events :=
    Disassembly.loneLabels_rows _ _ _
  have hposition (l : Label) : (g.position l).toOption = some i ↔ l = table.labelAt row.1 := by
    have hmeans := (FlowGraph.position_eq_ok_iff hg (l := l) (r := i)).trans hlone.means_iff
    rw [hi, Option.some.injEq, Event.label.injEq, eq_comm (b := l)] at hmeans
    rw [← hmeans]
    cases g.position l <;> simp [Except.toOption]
  have hhint : g.hints[i]? = some (.ofFrame (row.2.map (layout.relabel table))) := by
    rw [FlowGraph.hint_eq_find hg i]
    have hfound :
        frames.find? (fun row' => table.labelAt row'.1 = table.labelAt row.1) = some row := by
      have hsome : (frames.find? fun row' => table.labelAt row'.1 = table.labelAt row.1).isSome :=
        List.find?_isSome.mpr ⟨row, hrow, decide_eq_true rfl⟩
      obtain ⟨row', hrow'⟩ := Option.isSome_iff_exists.mp hsome
      have hmem' := List.mem_of_find?_eq_some hrow'
      have hstart := h.hasTable.inj (h.hasMarks.starts _ hmem') (h.hasMarks.starts _ hrow)
        (by simpa using List.find?_some hrow')
      rw [hrow', List.inj_on_of_nodup_map ((h.frames_spec hp).1.imp Nat.ne_of_lt) hmem' hrow hstart]
    simp only [hposition, Layout.reread, List.find?_map, Function.comp_def, hfound, Option.map_some]
    rfl
  rw [hs] at hstate
  exact hsolution.hinted (hsolution.states ▸ hstate) hhint

/-- Control jumps to the labels of the offsets that it has jumped to. -/
theorem jumpTarget_of_copy (hp : p.WellFormed) {copies : List PlacedHandler}
    (hcopies : List.Forall₂ (PlacedHandler.Copies table) parts.handlers copies) {l' : Label}
    (hl' : l' ∈ layout'.jumpTargets copies) :
    ∃ l ∈ layout.jumpTargets parts.handlers, layout.relabel table l = l' := by
  rcases Layout.mem_jumpTargets.mp hl' with ⟨c, hc, hl'⟩ | ⟨copy, hcopy, hl'⟩
  · cases hevent : c.event with
    | label l => simp [hevent, Event.targets] at hl'
    | instr i =>
      obtain ⟨a, ha, hmatch⟩ := h.repeats.instrs.exists_left
        (List.mem_filter.mpr ⟨hc, by simp [hevent, Event.isLabel]⟩)
      rw [hmatch.sized.event, Event.targets_map] at hl'
      obtain ⟨l, hl, rfl⟩ := List.mem_map.mp hl'
      exact ⟨l, Layout.mem_jumpTargets.mpr (.inl ⟨a, List.mem_of_mem_filter ha, hl⟩), rfl⟩
  · obtain ⟨placed, hplaced, hcopied⟩ := hcopies.exists_left hcopy
    obtain ⟨handler, -, hhandles⟩ := Layout.handles_of_mem hp h.areOf hplaced
    obtain rfl := Event.label.inj (hcopied.event.symm.trans hl')
    refine ⟨handler.target, Layout.mem_jumpTargets.mpr
      (.inr ⟨placed, hplaced, (Layout.mem_of_places hhandles.target).2⟩), ?_⟩
    rw [Layout.relabel, Layout.offset_of_places hhandles.target]

theorem jumpTarget_copy (hp : p.WellFormed) {copies : List PlacedHandler}
    (hcopies : List.Forall₂ (PlacedHandler.Copies table) parts.handlers copies) {l : Label}
    (hl : l ∈ layout.jumpTargets parts.handlers) :
    layout.relabel table l ∈ layout'.jumpTargets copies := by
  rcases Layout.mem_jumpTargets.mp hl with ⟨a, ha, hl⟩ | ⟨placed, hplaced, hl⟩
  · cases hevent : a.event with
    | label l => simp [hevent, Event.targets] at hl
    | instr i =>
      obtain ⟨c, hc, hmatch⟩ := h.repeats.instrs.exists_right
        (List.mem_filter.mpr ⟨ha, by simp [hevent, Event.isLabel]⟩)
      refine Layout.mem_jumpTargets.mpr (.inl ⟨c, List.mem_of_mem_filter hc, ?_⟩)
      rw [hmatch.sized.event, Event.targets_map]
      exact List.mem_map_of_mem hl
  · obtain ⟨copy, hcopy, hcopied⟩ := hcopies.exists_right hplaced
    obtain ⟨handler, -, hhandles⟩ := Layout.handles_of_mem hp h.areOf hplaced
    obtain rfl := Event.label.inj ((Layout.mem_of_places hhandles.target).2.symm.trans hl)
    refine Layout.mem_jumpTargets.mpr (.inr ⟨copy, hcopy, hcopied.event.trans ?_⟩)
    rw [Layout.relabel, Layout.offset_of_places hhandles.target]

/-- The same frames are found again, with the labels that have been read back. -/
theorem frames_again (hp : p.WellFormed) (hnew : ¬method.majorVersion < 50)
    {copies : List PlacedHandler}
    (hcopies : List.Forall₂ (PlacedHandler.Copies table) parts.handlers copies) :
    CodeWriter.frames layout'.places (layout'.jumpTargets copies) =
      .ok (frames.map fun (offset, frame) => (offset, frame.map (layout.relabel table))) := by
  obtain ⟨hsorted, hkeys⟩ := h.frames_spec hp
  have hkeys := hkeys hnew
  have hfound := h.hasFrames
  rw [Layout.HasFrames, if_neg hnew] at hfound
  have hreached : ∀ l' ∈ layout'.jumpTargets copies, ∃ e, layout'.places[l']? = some e ∧
      ∃ row ∈ frames, row.1 = e.offset ∧ l' = table.labelAt row.1 ∧ e.state.isSome = true := by
    intro l' hl'
    obtain ⟨l, hl, rfl⟩ := h.jumpTarget_of_copy hp hcopies hl'
    obtain ⟨row, hrow, hoffset⟩ := List.mem_map.mp ((hkeys _).mpr ⟨l, hl, rfl⟩)
    obtain ⟨e₀, he₀, hreached⟩ := (h.emittedAs hp).reached_of_jumpTarget hp hl
    have hlt : layout.offset l < layout.length := by
      rw [Layout.offset_of_places he₀]
      exact h.made.offset_lt h.written.size_pos (Layout.mem_of_places he₀).1 hreached
    obtain ⟨e, he, heoffset, hsome⟩ :=
      h.reached_of_mark hp (hoffset ▸ h.hasMarks.starts row hrow) hlt
    exact ⟨e, he, row, hrow, hoffset.trans heoffset.symm, by rw [hoffset]; rfl, hsome⟩
  obtain ⟨frames', hframes'⟩ := Layout.exists_frames fun l' hl' =>
    (hreached l' hl').imp fun e he => he.1
  obtain ⟨hsorted', hkeys'⟩ := Layout.frames_spec hframes' fun l' hl' => by
    obtain ⟨e, he, -, -, -, -, hsome⟩ := hreached l' hl'
    exact ⟨e, he, hsome⟩
  have hmapped : ∀ row' ∈ frames', row' ∈
      frames.map fun (offset, frame) => (offset, frame.map (layout.relabel table)) := by
    intro row' hrow'
    obtain ⟨l', hl', e, s, he, hs, rfl⟩ := Layout.mem_frames hframes' row' hrow'
    obtain ⟨e', he', row, hrow, hoffset, rfl, -⟩ := hreached l' hl'
    obtain rfl := Option.some.inj (he.symm.trans he')
    obtain rfl := h.state_of_frame hp hrow he hs
    obtain ⟨l, -, e₀, s₀, -, -, rfl⟩ := Layout.mem_frames hfound row hrow
    refine List.mem_map.mpr ⟨_, hrow, ?_⟩
    rw [FlowState.toFrame_ofFrame_map]
    exact congrArg (·, _) hoffset
  refine hframes'.trans (congrArg _ (eq_of_increasing hsorted' ?_ fun row' => ⟨hmapped row', ?_⟩))
  · rw [List.map_map]
    exact hsorted
  · intro hrow'
    obtain ⟨row, hrow, rfl⟩ := List.mem_map.mp hrow'
    obtain ⟨l, hl, hoffset⟩ := (hkeys _).mp (List.mem_map_of_mem hrow)
    have hmem : row.1 ∈ frames'.map (·.1) := by
      refine (hkeys' _).mpr ⟨_, h.jumpTarget_copy hp hcopies hl, ?_⟩
      rw [Layout.relabel, hoffset]
      exact h.repeats.offset_labelAt (h.hasMarks.starts row hrow)
    obtain ⟨row', hfirst, heq⟩ := List.mem_map.mp hmem
    obtain ⟨row₁, hrow₁, rfl⟩ := List.mem_map.mp (hmapped row' hfirst)
    obtain rfl := List.inj_on_of_nodup_map (hsorted.imp Nat.ne_of_lt) hrow₁ hrow heq
    exact hfirst

/-- The stack map is written as before, if its sites stay apart. -/
theorem stackMap_again (hp : p.WellFormed) {copies : List PlacedHandler}
    (hcopies : List.Forall₂ (PlacedHandler.Copies table) parts.handlers copies)
    (hsites : Separates (fun l => ∃ row ∈ frames, l ∈ row.2.sites) (layout.relabel table)) :
    stackMap layout'.places layout' copies method =
      stackMap layout.places layout parts.handlers method := by
  have hagain : layout'.HasFrames copies method
      (frames.map fun (offset, frame) => (offset, frame.map (layout.relabel table))) := by
    have hframes := h.hasFrames
    unfold Layout.HasFrames at hframes ⊢
    split
    · rename_i hold
      rw [if_pos hold] at hframes
      rw [hframes]
      rfl
    · rename_i hnew
      exact h.frames_again hp hnew hcopies
  have hoffsets : ∀ row ∈ frames, ∀ l ∈ row.2.sites,
      layout'.places.offsetOf (layout.relabel table l) = layout.places.offsetOf l := by
    intro row hrow l hl
    obtain ⟨⟨offset, hoffset⟩, hmark⟩ := h.hasMarks.sites row hrow l hl
    rw [Layout.relabel, h.repeats.offsetOf_labelAt hmark, hoffset,
      Layout.offset_of_offsetOf hoffset]
  rw [Layout.stackMap_eq hagain, Layout.stackMap_eq h.hasFrames,
    Layout.writeFrames_map hsites hoffsets]

/-- What has been written is written again, but for the bounds that the analysis finds. -/
theorem finds_again (hp : p.WellFormed)
    (hsites : Separates (fun l => ∃ row ∈ frames, l ∈ row.2.sites) (layout.relabel table)) :
    Finds ((layout.reread body parts p table frames).encode method) p
      (parts.bytes
        { layout with maxStack := solution.maxStack, maxLocals := solution.maxLocals }) := by
  obtain ⟨copies, hplaced, hcopies⟩ := h.exists_copies hp
  have hlength := hcopies.length_eq
  refine ((Body.splits_encode _ method).finds hp).mpr ⟨h.checkLabels_reread, layout', h.ofBodyAgain,
    h.repeats.length ▸ h.length_le, { parts with handlers := copies }, ?areOf, ?bytes⟩
  case areOf =>
    exact {
      code := h.finds_code h.repeats hp
      handlers := ⟨_, hplaced, by simp⟩
      lines := h.lines_again h.repeats
      localVariables := h.repeats.variables_again h.areOf.localVariables fun row hrow =>
        h.hasMarks.variableRows row (List.mem_append_left _ hrow)
      localVariableTypes := h.repeats.variables_again h.areOf.localVariableTypes fun row hrow =>
        h.hasMarks.variableRows row (List.mem_append_right _ hrow)
      stackMap := (h.stackMap_again hp hcopies hsites) ▸ h.areOf.stackMap
      kept := keptAttributes_again h.areOf.kept
      handlerCount := hlength ▸ h.areOf.handlerCount
      attributes := h.areOf.attributes }
  case bytes =>
    simp only [Parts.bytes, flatMap_handlerBytes hcopies, h.isOf.maxStack, h.isOf.maxLocals]

end Body.LaidAgain

end ClassPatch
