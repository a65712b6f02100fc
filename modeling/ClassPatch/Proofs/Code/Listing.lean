import ClassPatch.Proofs.Code.Rebuilding
import ClassPatch.Proofs.Code.StackMapCodec

/-!
# Layouts as listings

What a code attribute says is read back as the listing of its layout, and this listing becomes a
body with the program of the layout.
-/

namespace ClassPatch

open PoolM Reader

namespace Layout

variable {layout : Layout} {p q : ConstantPool} {code : Bytes}

/-! ### Offsets of labels and instructions -/

/-- A label has a place. -/
def Resolves (layout : Layout) (l : Label) : Prop :=
  ∃ offset, layout.places.offsetOf l = .ok offset

theorem Resolves.offsetOf_eq {l : Label} (h : layout.Resolves l) :
    layout.places.offsetOf l = .ok (layout.offset l) := by
  obtain ⟨offset, hoffset⟩ := h
  rw [offset_of_offsetOf hoffset, hoffset]

theorem Resolves.of_places {l : Label} {e : PlacedEvent} (h : layout.places[l]? = some e) :
    layout.Resolves l :=
  ⟨e.offset, Except.bind_eq_ok.mpr ⟨e, find_eq_ok.mpr h, rfl⟩⟩

theorem Resolves.exists_placed {l : Label} (h : layout.Resolves l) :
    ∃ e ∈ layout.placed, e.event = .label l ∧ e.offset = layout.offset l := by
  obtain ⟨offset, hoffset⟩ := h
  obtain ⟨e, he, hpure⟩ := Except.bind_eq_ok.mp hoffset
  obtain ⟨hmem, hevent⟩ := mem_of_places (find_eq_ok.mp he)
  exact ⟨e, hmem, hevent, by rw [offset_of_offsetOf hoffset, ← Except.pure_eq_ok.mp hpure]⟩

/-- Every instruction takes room. -/
def Filled (placed : List PlacedEvent) : Prop :=
  ∀ e ∈ placed, ∀ i, e.event = .instr i → 0 < e.extent.size e.offset e.wide

theorem mem_code {offset : Label → Nat} {placed : List PlacedEvent} {row : Nat × Instruction Nat} :
    row ∈ codeOf offset placed ↔
      ∃ e ∈ placed, ∃ i, e.event = .instr i ∧ row = (e.offset, i.map offset) := by
  unfold codeOf
  rw [List.mem_filterMap]
  refine exists_congr fun e => and_congr_right fun _ => ?_
  cases hevent : e.event with
  | label l => simp [Event.instr?]
  | instr i => simp [Event.instr?, eq_comm]

/-- Instructions begin at increasing offsets. -/
theorem pairwise_code {offset : Label → Nat} {placed : List PlacedEvent} {start stop : Nat}
    (hlaid : Laid start placed stop) (hfilled : Filled placed) :
    ((codeOf offset placed).map (·.1)).Pairwise (· < ·) := by
  induction hlaid with
  | nil => simp [codeOf]
  | @cons e placed stop h ih =>
    have ih := ih fun e' he' => hfilled e' (List.mem_cons_of_mem _ he')
    cases hevent : e.event with
    | label l => simpa [codeOf, hevent, Event.instr?] using ih
    | instr i =>
      have hpos := hfilled e (List.mem_cons_self ..) i hevent
      have hcode : codeOf offset (e :: placed) = (e.offset, i.map offset) ::
          codeOf offset placed := by
        simp [codeOf, hevent, Event.instr?]
      rw [hcode, List.map_cons, List.pairwise_cons]
      refine ⟨fun o ho => ?_, ih⟩
      obtain ⟨row, hrow, rfl⟩ := List.mem_map.mp ho
      obtain ⟨e', he', i', -, rfl⟩ := mem_code.mp hrow
      have := h.start_le e' he'
      show e.offset < e'.offset
      omega

theorem lt_of_mem_code {offset : Label → Nat} {placed : List PlacedEvent} {start stop : Nat}
    (hlaid : Laid start placed stop) (hfilled : Filled placed) :
    ∀ row ∈ codeOf offset placed, row.1 < stop := by
  rintro row hrow
  obtain ⟨e, he, i, hevent, rfl⟩ := mem_code.mp hrow
  have := hlaid.le_stop e he
  have := hfilled e he i hevent
  show e.offset < stop
  omega

/-- A label lies where an instruction begins or where the code ends. -/
theorem boundary_of_laid {offset : Label → Nat} {placed : List PlacedEvent} {start stop : Nat}
    (hlaid : Laid start placed stop)
    (hlabels : ∀ e ∈ placed, ∀ l, e.event = .label l → e.extent.size e.offset e.wide = 0) :
    start = stop ∨ start ∈ (codeOf offset placed).map (·.1) := by
  induction hlaid with
  | nil => exact .inl rfl
  | @cons e placed stop h ih =>
    cases hevent : e.event with
    | label l =>
      have hzero := hlabels e (List.mem_cons_self ..) l hevent
      have ih := ih fun e' he' => hlabels e' (List.mem_cons_of_mem _ he')
      rw [hzero, Nat.add_zero] at ih
      simpa [codeOf, hevent, Event.instr?] using ih
    | instr i => simp [codeOf, hevent, Event.instr?]

theorem codeOf_append {offset : Label → Nat} (placed placed' : List PlacedEvent) :
    codeOf offset (placed ++ placed') = codeOf offset placed ++ codeOf offset placed' :=
  List.filterMap_append

theorem length_codeOf {offset : Label → Nat} (placed : List PlacedEvent) :
    (codeOf offset placed).length = (instructions (placed.map (·.event))).length := by
  induction placed with
  | nil => rfl
  | cons e placed ih =>
    cases hevent : e.event with
    | label l => simpa [codeOf, hevent, Event.instr?] using ih
    | instr i => simpa [codeOf, hevent, Event.instr?] using ih

/-- The program that is written has as many instructions as the code. -/
theorem length_program_placed (layout : Layout) :
    (program (layout.placed.map (·.event))).length = layout.code.length := by
  rw [length_program, code_eq, length_codeOf]

/-- The instructions in front of an event are those at smaller offsets. -/
theorem numberOf_code (offset : Label → Nat) {before after : List PlacedEvent} {e : PlacedEvent}
    {start stop : Nat} (hlaid : Laid start (before ++ e :: after) stop)
    (hfilled : Filled (before ++ e :: after)) :
    Disassembly.numberOf (codeOf offset (before ++ e :: after)) e.offset =
      (instructions (before.map (·.event))).length := by
  obtain ⟨middle, hbefore, hafter⟩ := hlaid.of_append
  have hmiddle : middle = e.offset := by
    cases hafter
    rfl
  subst hmiddle
  have hfront : (codeOf offset before).countP (·.1 < e.offset) = (codeOf offset before).length := by
    refine List.countP_eq_length.mpr fun row hrow => ?_
    simpa using lt_of_mem_code hbefore (fun e he => hfilled e (List.mem_append_left _ he)) row hrow
  have hback : (codeOf offset (e :: after)).countP (·.1 < e.offset) = 0 := by
    refine List.countP_eq_zero.mpr fun row hrow => ?_
    obtain ⟨e', he', i, -, rfl⟩ := mem_code.mp hrow
    simpa using hafter.start_le e' he'
  rw [Disassembly.numberOf, codeOf_append, List.countP_append, hfront, hback, Nat.add_zero,
    length_codeOf]

section Written

variable (hmade : layout.MadeIn p)
include hmade

theorem MadeIn.size_label {e : PlacedEvent} (he : e ∈ layout.placed) {l : Label}
    (hevent : e.event = .label l) : e.extent.size e.offset e.wide = 0 := by
  have hextent := hmade.measured e he
  rw [hevent] at hextent
  rw [← finds_pure.mp hextent]
  rfl

/-- A label that is placed has a place. -/
theorem MadeIn.resolves {l : Label} (hl : l ∈ placedLabels (layout.placed.map (·.event))) :
    layout.Resolves l := by
  obtain ⟨e, he, hevent⟩ := List.mem_map.mp (mem_placedLabels.mp hl)
  have hplaces := places_of_mem hmade.nodup he hevent
  exact ⟨e.offset, Except.bind_eq_ok.mpr ⟨e, find_eq_ok.mpr hplaces, rfl⟩⟩

/-- A label that a body places has a place in its layout. -/
theorem MadeIn.resolves_of_placed {body : Body} {method : MethodContext} (hp : p.WellFormed)
    (hlabels : body.checkLabels = .ok ()) (hfinds : Finds (ofBody body method) p layout) {l : Label}
    (hl : l ∈ placedLabels body.events) : layout.Resolves l := by
  obtain ⟨-, widths, hlowers⟩ := lowers_of_finds hp hlabels hfinds
  have hplaced := hlowers.placed l hl
  rw [List.map_map] at hplaced
  exact hmade.resolves hplaced

/-- Labels behind all instructions lie at the end of the code. -/
theorem MadeIn.offset_eq_length {events behind : List Event}
    (hplaced : layout.placed.map (·.event) = events ++ behind) (hbehind : instructions behind = [])
    {l : Label} (hl : l ∈ placedLabels behind) : layout.offset l = layout.length := by
  obtain ⟨front, back, hsplit, -, hback⟩ := List.map_eq_append_iff.mp hplaced
  obtain ⟨e, he, hevent⟩ := List.mem_map.mp (hback ▸ mem_placedLabels.mp hl)
  have hmem : e ∈ layout.placed := hsplit ▸ List.mem_append_right front he
  obtain ⟨before, after, rfl⟩ := List.append_of_mem he
  have hlaid := hmade.laid
  rw [hsplit] at hlaid
  obtain ⟨middle, -, hlaid⟩ := hlaid.of_append
  obtain ⟨middle', -, hafter⟩ := hlaid.of_append
  have hmiddle : middle' = e.offset := by
    cases hafter
    rfl
  subst hmiddle
  have hnone : codeOf layout.offset (e :: after) = [] := by
    rw [← List.length_eq_zero_iff, length_codeOf, List.length_eq_zero_iff]
    rw [← hback, List.map_append, instructions_append, List.append_eq_nil_iff] at hbehind
    exact hbehind.2
  have hend : e.offset = layout.length ∨
      e.offset ∈ (codeOf layout.offset (e :: after)).map (·.1) :=
    boundary_of_laid hafter fun e' he' l' hevent' => hmade.size_label (hsplit ▸ by
      simpa using .inr (.inr (List.mem_cons.mp he'))) hevent'
  rw [offset_of_places (places_of_mem hmade.nodup hmem hevent)]
  exact hend.resolve_right (by simp [hnone])

theorem MadeIn.boundary {l : Label} (hl : layout.Resolves l) :
    layout.offset l = layout.length ∨ layout.offset l ∈ layout.code.map (·.1) := by
  obtain ⟨e, he, hevent, hoffset⟩ := hl.exists_placed
  obtain ⟨before, after, hplaced⟩ := List.append_of_mem he
  have hlaid := hmade.laid
  rw [hplaced] at hlaid
  obtain ⟨middle, -, hafter⟩ := hlaid.of_append
  have hmiddle : middle = e.offset := by
    cases hafter
    rfl
  subst hmiddle
  rw [← hoffset, code_eq, hplaced, codeOf_append, List.map_append]
  refine (boundary_of_laid hafter fun e' he' l' hevent' => hmade.size_label ?_ hevent').imp_right
    (List.mem_append_right _)
  rw [hplaced]
  exact List.mem_append_right _ he'

/-- A label stands for the instruction at its offset. -/
theorem MadeIn.numberOf_offset (hfilled : Filled layout.placed) {l : Label}
    (hl : layout.Resolves l) :
    layout.code.numberOf (layout.offset l) = landing (layout.placed.map (·.event)) l := by
  obtain ⟨e, he, hevent, hoffset⟩ := hl.exists_placed
  obtain ⟨before, after, hplaced⟩ := List.append_of_mem he
  have hlaid := hmade.laid
  rw [hplaced] at hlaid hfilled
  have hat : (layout.placed.map (·.event))[before.length]? = some (.label l) := by
    simp [hplaced, hevent]
  rw [landing_at hmade.nodup hat, ← hoffset, code_eq]
  have hnumber := numberOf_code layout.offset hlaid hfilled
  rw [← hplaced] at hnumber
  rw [hnumber, numberAt, hplaced]
  simp

/-- The listing of a layout has its program. -/
theorem MadeIn.program_code (hfilled : Filled layout.placed)
    (hresolved : ∀ e ∈ layout.placed, ∀ i, e.event = .instr i → ∀ l ∈ i.targets,
      layout.Resolves l) :
    layout.code.map (fun (_, i) => i.map layout.code.numberOf) =
      program (layout.placed.map (·.event)) := by
  unfold program instructions
  change List.map _ (List.filterMap _ layout.placed) = _
  rw [List.map_filterMap, List.filterMap_map, List.map_filterMap]
  refine List.filterMap_congr fun e he => ?_
  simp only [Function.comp_apply]
  cases hevent : e.event with
  | label l => rfl
  | instr i =>
    simp only [Event.instr?, Option.map_some, Instruction.map_map, Option.some.injEq]
    exact Instruction.map_congr fun l hl =>
      hmade.numberOf_offset hfilled (hresolved e he i hevent l hl)

end Written

/-! ### Handlers -/

/-- A handler has been placed. -/
structure Places.Handles (layout : Layout) (p : ConstantPool) (h : Handler)
    (placed : CodeWriter.PlacedHandler) : Prop where
  start_eq : placed.start = layout.offset h.start
  stop_eq : placed.stop = layout.offset h.stop
  start_resolves : layout.Resolves h.start
  stop_resolves : layout.Resolves h.stop
  target : layout.places[h.target]? = some placed.target
  lt : placed.start < placed.stop
  reached : placed.target.state.isSome = true
  catchType : match h.catchType with
    | none => placed.catchType = 0
    | some name => placed.catchType ≠ 0 ∧ Finds (PoolM.classRef name) p placed.catchType

/-- What the writer makes of a handler. -/
theorem placeHandler_cases (hp : p.WellFormed) {h : Handler}
    {r : Option CodeWriter.PlacedHandler}
    (hr : Finds (CodeWriter.placeHandler layout.places h) p r) :
    (r = none ∧ ¬(layout.offset h.start < layout.offset h.stop ∧
      ∃ e, layout.places[h.target]? = some e ∧ e.state.isSome = true)) ∨
    ∃ placed, r = some placed ∧ Places.Handles layout p h placed := by
  let rest (start stop : Nat) (target : PlacedEvent) : PoolM (Option CodeWriter.PlacedHandler) :=
    if start < stop && target.state.isSome then
      h.catchType.elim (return some { start, stop, target, catchType := 0 }) fun name =>
        return some { start, stop, target, catchType := ← PoolM.classRef name }
    else return none
  have hrest (start stop : Nat) (target : PlacedEvent) : Steady (rest start stop target) := by
    refine .ite ?_ (.pure _)
    cases h.catchType with
    | none => exact .pure _
    | some name => exact (steady_classRef name).bind fun _ => .pure _
  have hplace : CodeWriter.placeHandler layout.places h = (do
      let start ← CodeWriter.ofExcept (layout.places.offsetOf h.start)
      let stop ← CodeWriter.ofExcept (layout.places.offsetOf h.stop)
      let target ← CodeWriter.ofExcept (layout.places.find h.target)
      rest start stop target) := by
    cases h with
    | mk start stop target catchType => cases catchType <;> rfl
  rw [hplace] at hr
  obtain ⟨start, hstart, hr⟩ := (finds_bind (CodeWriter.steady_ofExcept _) (fun _ =>
    (CodeWriter.steady_ofExcept _).bind fun _ => (CodeWriter.steady_ofExcept _).bind fun _ =>
      hrest _ _ _) hp).mp hr
  obtain ⟨stop, hstop, hr⟩ := (finds_bind (CodeWriter.steady_ofExcept _) (fun _ =>
    (CodeWriter.steady_ofExcept _).bind fun _ => hrest _ _ _) hp).mp hr
  obtain ⟨target, htarget, hr⟩ := (finds_bind (CodeWriter.steady_ofExcept _) (fun _ =>
    hrest _ _ _) hp).mp hr
  replace hstart := CodeWriter.finds_ofExcept.mp hstart
  replace hstop := CodeWriter.finds_ofExcept.mp hstop
  have hplaces := find_eq_ok.mp (CodeWriter.finds_ofExcept.mp htarget)
  obtain rfl := offset_of_offsetOf hstart
  obtain rfl := offset_of_offsetOf hstop
  rcases finds_ite hr with ⟨hkept, hr⟩ | ⟨hleft, hr⟩
  · obtain ⟨hlt, hreached⟩ := Bool.and_eq_true_iff.mp hkept
    cases hcatch : h.catchType with
    | none =>
      rw [hcatch] at hr
      obtain rfl := finds_pure.mp hr
      exact .inr ⟨_, rfl, rfl, rfl, ⟨_, hstart⟩, ⟨_, hstop⟩, hplaces, of_decide_eq_true hlt,
        hreached, by rw [hcatch]⟩
    | some name =>
      rw [hcatch] at hr
      obtain ⟨index, hindex, hr⟩ := (finds_bind (steady_classRef _) (fun _ => .pure _) hp).mp hr
      obtain rfl := finds_pure.mp hr
      exact .inr ⟨_, rfl, rfl, rfl, ⟨_, hstart⟩, ⟨_, hstop⟩, hplaces, of_decide_eq_true hlt,
        hreached, by rw [hcatch]; exact ⟨ne_zero_of_classRef hp hindex, hindex⟩⟩
  · refine .inl ⟨(finds_pure.mp hr).symm, ?_⟩
    rintro ⟨hlt, e, he, hreached⟩
    apply hleft
    obtain rfl := Option.some.inj (hplaces.symm.trans he)
    simp [hlt, hreached]

/-! ### Frames -/

/-- The offsets that control comes to by jumps and by the handlers of a layout. -/
def jumpTargets (layout : Layout) (handlers : List CodeWriter.PlacedHandler) : List Label :=
  (layout.placed.flatMap fun e => e.event.targets) ++
    handlers.filterMap fun h => h.target.event.label?

/-- Frames are written at places of targets, with the states there. -/
theorem mem_frames {targets : List Label} {frames : List (Nat × Frame)}
    (h : CodeWriter.frames layout.places targets = .ok frames) :
    ∀ row ∈ frames, ∃ l ∈ targets, ∃ e s, layout.places[l]? = some e ∧ e.state = some s ∧
      row = (e.offset, s.toFrame) := by
  obtain ⟨reached, hreached, h⟩ := Except.bind_eq_ok.mp h
  obtain rfl := Except.pure_eq_ok.mp h
  have hall : ∀ offset s, reached[offset]? = some s → ∃ l ∈ targets, ∃ e,
      layout.places[l]? = some e ∧ e.state = some s ∧ e.offset = offset := by
    refine Except.foldlM_induction (fun reached => ∀ offset s, reached[offset]? = some s →
      ∃ l ∈ targets, ∃ e, layout.places[l]? = some e ∧ e.state = some s ∧ e.offset = offset)
      hreached (by simp) fun reached l reached' hl ih hstep => ?_
    obtain ⟨e, he, hstep⟩ := Except.bind_eq_ok.mp hstep
    have hplaces := find_eq_ok.mp he
    split at hstep
    · rename_i state hstate
      obtain rfl := Except.pure_eq_ok.mp hstep
      split
      · exact ih
      · intro offset s hs
        rw [Std.TreeMap.getElem?_insert] at hs
        split at hs
        · rename_i heq
          obtain rfl := Option.some.inj hs
          exact ⟨l, hl, e, hplaces, hstate, Nat.compare_eq_eq.mp heq⟩
        · exact ih offset s hs
    · obtain rfl := Except.pure_eq_ok.mp hstep
      exact ih
  rintro row hrow
  obtain ⟨⟨offset, s⟩, hmem, rfl⟩ := List.mem_map.mp hrow
  obtain ⟨l, hl, e, hplaces, hstate, rfl⟩ :=
    hall offset s (Std.TreeMap.mem_toList_iff_getElem?_eq_some.mp hmem)
  exact ⟨l, hl, e, s, hplaces, hstate, rfl⟩

/-- The frames that belong to a layout, if its class has stack maps. -/
def HasFrames (layout : Layout) (handlers : List CodeWriter.PlacedHandler)
    (method : MethodContext) (frames : List (Nat × Frame)) : Prop :=
  if method.majorVersion < 50 then frames = []
  else CodeWriter.frames layout.places (layout.jumpTargets handlers) = .ok frames

/-- A stack map is written if there are frames. -/
theorem stackMap_cases (hp : p.WellFormed) {handlers : List CodeWriter.PlacedHandler}
    {method : MethodContext} {table : List Attribute}
    (h : Finds (CodeWriter.stackMap layout.places layout handlers method) p table) :
    ∃ frames, layout.HasFrames handlers method frames ∧ ((frames = [] ∧ table = []) ∨
      ∃ index payload initial, frames ≠ [] ∧ table = [⟨index, payload⟩] ∧
        Finds (PoolM.text CodeAttribute.stackMapTable) p index ∧
        Frame.entry method = .ok initial ∧
        Finds (StackMap.encode frames initial layout.places.offsetOf) p payload) := by
  unfold CodeWriter.stackMap at h
  rcases finds_ite h with ⟨hold, h⟩ | ⟨hnew, h⟩
  · exact ⟨[], by rw [HasFrames, if_pos hold], .inl ⟨rfl, (finds_pure.mp h).symm⟩⟩
  · have hwrite (frames : List (Nat × Frame)) : Steady (do
        let initial ← CodeWriter.ofExcept (Frame.entry method)
        let payload ← StackMap.encode frames initial layout.places.offsetOf
        return [{ name := ← PoolM.text CodeAttribute.stackMapTable, payload : Attribute }]) :=
      (CodeWriter.steady_ofExcept _).bind fun _ => (StackMap.steady_encode _ _).bind fun _ =>
        (steady_text _).bind fun _ => .pure _
    obtain ⟨frames, hframes, h⟩ := (finds_bind (CodeWriter.steady_ofExcept _) (fun _ =>
      .ite (.pure _) (hwrite _)) hp).mp h
    have hframes' : layout.HasFrames handlers method frames := by
      rw [HasFrames, if_neg hnew, ← CodeWriter.finds_ofExcept.mp hframes]
      congr 2
    refine ⟨frames, hframes', ?_⟩
    rcases finds_ite h with ⟨hempty, h⟩ | ⟨hsome, h⟩
    · exact .inl ⟨List.isEmpty_iff.mp hempty, (finds_pure.mp h).symm⟩
    · obtain ⟨initial, hinitial, h⟩ := (finds_bind (CodeWriter.steady_ofExcept _) (fun _ =>
        (StackMap.steady_encode _ _).bind fun _ => (steady_text _).bind fun _ => .pure _) hp).mp h
      obtain ⟨payload, hpayload, h⟩ := (finds_bind (StackMap.steady_encode _ _) (fun _ =>
        (steady_text _).bind fun _ => .pure _) hp).mp h
      obtain ⟨index, hindex, h⟩ := (finds_bind (steady_text _) (fun _ => .pure _) hp).mp h
      exact .inr ⟨index, payload, initial, fun hnil => hsome (by simp [hnil]),
        (finds_pure.mp h).symm, hindex, CodeWriter.finds_ofExcept.mp hinitial, hpayload⟩

end Layout
end ClassPatch
