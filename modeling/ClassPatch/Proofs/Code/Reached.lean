import ClassPatch.Proofs.Code.Emission

/-!
# Everything that is written is reached

The states of a layout tell which of its labels control comes to. Whatever a written instruction
jumps to is among them, and so is the target of every handler that guards something reached. So
control reaches every written instruction already with the handlers that are kept.
-/

namespace ClassPatch

open PoolM CodeWriter

/-! ### States of placed events -/

namespace Layout

variable {layout : Layout} {body : Body} {method : MethodContext} {events : List LayoutEvent}
  {solution : FlowSolution} {sized : List SizedEvent} {p : ConstantPool}

/-- A placed event is one of the last round, with its state there. -/
theorem IsOf.exists_position (hp : p.WellFormed)
    (h : layout.IsOf body method events solution sized p) {e : PlacedEvent}
    (he : e ∈ layout.placed) : ∃ i : Nat, (events.map (·.event))[i]? = some e.event ∧
      solution.states[i]? = some e.state ∧ (e.event.isLabel = true ∨ e.state.isSome = true) := by
  obtain ⟨row, hrow, hevent, hstate, -⟩ := (h.forall₂_placed hp).exists_left he
  obtain ⟨hzip, hkept⟩ := List.mem_filter.mp hrow
  obtain ⟨i, hi⟩ := List.mem_iff_getElem?.mp hzip
  obtain ⟨hat, hsolved⟩ := List.getElem?_zip_eq_some.mp hi
  refine ⟨i, ?_, ?_, ?_⟩
  · rw [List.getElem?_map, hat, hevent, Option.map_some]
  · rw [hstate, ← Array.getElem?_toList, hsolved]
  · rw [hevent, hstate]
    simpa using hkept

/-- A label has a state exactly if control reaches what it stands for. -/
theorem IsOf.reached_iff (hp : p.WellFormed)
    (h : layout.IsOf body method events solution sized p) {l : Label} {e : PlacedEvent}
    (hl : layout.places[l]? = some e) : e.state.isSome = true ↔
      Reaches (program (events.map (·.event))) (guards (events.map (·.event)) body.handlers)
        (landing (events.map (·.event)) l) := by
  have hfollows := FlowSolution.follows h.analyzed
  obtain ⟨he, hevent⟩ := mem_of_places hl
  obtain ⟨i, hi, hstate, -⟩ := h.exists_position hp he
  rw [hevent] at hi
  rw [landing_at hfollows.nodup hi, ← hfollows.state_iff (List.getElem?_eq_some_iff.mp hi).1,
    hstate, Option.isSome_iff_exists]
  simp

/-- Control comes to whatever a placed instruction jumps to. -/
theorem IsOf.reached_of_target (hp : p.WellFormed)
    (h : layout.IsOf body method events solution sized p) {e e' : PlacedEvent}
    (he : e ∈ layout.placed) {i : Instruction Label} (hi : e.event = .instr i) {l : Label}
    (hl : l ∈ i.targets) (hplace : layout.places[l]? = some e') : e'.state.isSome = true := by
  have hfollows := FlowSolution.follows h.analyzed
  obtain ⟨k, hk, hstate, hkept⟩ := h.exists_position hp he
  rw [hi] at hk hkept
  obtain ⟨s, hs⟩ := Option.isSome_iff_exists.mp (hkept.resolve_left (by simp [Event.isLabel]))
  have hreaches := (hfollows.state_iff (List.getElem?_eq_some_iff.mp hk).1).mp ⟨s, hs ▸ hstate⟩
  apply (h.reached_iff hp hplace).mpr
  refine hreaches.jump (program_at hk) ?_
  rw [Instruction.targets_map]
  exact List.mem_map_of_mem hl

/-- Control that comes to a label in a body comes to it in the layout. -/
theorem IsOf.reached_of_live (hp : p.WellFormed) (hlabels : body.checkLabels = .ok ())
    (hrounds : Rounds body method p (body.events.map (⟨·, false⟩)) events)
    (h : layout.IsOf body method events solution sized p) {l : Label} (hl : l ∈ body.references)
    (hlive : body.Live (landing body.events l)) {e : PlacedEvent}
    (hplace : layout.places[l]? = some e) : e.state.isSome = true := by
  apply (h.reached_iff hp hplace).mpr
  rcases lowers_of_rounds hp hlabels hrounds with rfl | ⟨hlt, widths, hlowers⟩
  · have hsame : (body.events.map (⟨·, false⟩ : Event → LayoutEvent)).map (·.event) =
        body.events := by
      simp [Function.comp_def]
    rw [hsame]
    exact hlive
  · have hnodup := (FlowSolution.follows h.analyzed).nodup
    rw [landing_of_lowers hlabels hlowers hnodup hl, guards_of_lowers hlabels hlowers hnodup]
    refine (relayed_of_lowers hlabels hlowers hnodup).reaches_place (placeBy_mono widths) ?_ hlive
    intro n hn
    rw [length_program]
    exact hlt hn

end Layout

/-! ### Instructions in front of an offset -/

namespace Disassembly

theorem numberOf_mono (code : Disassembly) {a b : Nat} (h : a ≤ b) :
    code.numberOf a ≤ code.numberOf b := by
  refine List.countP_mono_left fun row _ hrow => ?_
  have hlt := of_decide_eq_true hrow
  exact decide_eq_true (by omega)

theorem numberOf_le_length (code : Disassembly) (offset : Nat) :
    code.numberOf offset ≤ code.length := List.countP_le_length

/-- In front of an instruction stand those at smaller offsets. -/
theorem numberOf_of_split {before after code : Disassembly} {row : Nat × Instruction Nat}
    (hsorted : (code.map (·.1)).Pairwise (· < ·)) (hcode : code = before ++ row :: after) :
    code.numberOf row.1 = before.length := by
  rw [hcode, List.map_append, List.map_cons, List.pairwise_append, List.pairwise_cons] at hsorted
  obtain ⟨-, ⟨hback, -⟩, hfront⟩ := hsorted
  have hbefore : before.countP (·.1 < row.1) = before.length := by
    refine List.countP_eq_length.mpr fun r hr => decide_eq_true ?_
    exact hfront _ (List.mem_map_of_mem hr) _ (List.mem_cons_self ..)
  have hafter : (row :: after).countP (·.1 < row.1) = 0 := by
    refine List.countP_eq_zero.mpr fun r hr hlt => ?_
    have hlt := of_decide_eq_true hlt
    rcases List.mem_cons.mp hr with rfl | hr
    · exact Nat.lt_irrefl _ hlt
    · exact Nat.lt_asymm hlt (hback _ (List.mem_map_of_mem hr))
  rw [numberOf, hcode, List.countP_append, hbefore, hafter, Nat.add_zero]

/-- A boundary with the number of an instruction is where the instruction begins. -/
theorem eq_of_numberOf {code before after : Disassembly} {length offset : Nat}
    {row : Nat × Instruction Nat} (hsorted : (code.map (·.1)).Pairwise (· < ·))
    (hlt : ∀ row ∈ code, row.1 < length) (hoffset : offset = length ∨ offset ∈ code.map (·.1))
    (hcode : code = before ++ row :: after) (hnumber : code.numberOf offset = before.length) :
    offset = row.1 := by
  rcases hoffset with rfl | hmem
  · have hall : code.numberOf offset = code.length :=
      List.countP_eq_length.mpr fun r hr => decide_eq_true (hlt r hr)
    rw [hcode, List.length_append, List.length_cons] at hall
    rw [hcode] at hnumber
    omega
  · obtain ⟨row', hrow', rfl⟩ := List.mem_map.mp hmem
    obtain ⟨front, back, hsplit⟩ := List.append_of_mem hrow'
    have hlength : front.length = before.length := by
      rw [← numberOf_of_split hsorted hsplit, hnumber]
    have heq := hsplit.symm.trans hcode
    have hhead := (List.append_inj heq hlength).2
    rw [(List.cons.inj hhead).1]

end Disassembly

/-! ### Bodies that have been lowered -/

/-- How a body has been lowered: control stays in its program, the layout has the part of it that
control reaches, in the same order, and every label has come to where the instructions behind it
have. -/
structure Body.LoweredTo (body : Body) (method : MethodContext) (p : ConstantPool)
    (layout : Layout) (place : Nat → Nat) : Prop where
  mono : ∀ {a b : Nat}, a ≤ b → place a ≤ place b
  lt : ∀ {n : Nat}, body.Live n → n < (program body.events).length
  relayed : Relayed body.Live (body.Overshoots method p) place 0 0 (program body.events)
    (program (layout.placed.map (·.event)))
  number : ∀ l ∈ body.references, layout.code.numberOf (layout.offset l) =
    place (landing body.events l)

/-- An instruction stands behind a label exactly if what has come of it does. -/
theorem Body.LoweredTo.landing_le_iff {body : Body} {method : MethodContext} {p : ConstantPool}
    {layout : Layout} {place : Nat → Nat} (h : body.LoweredTo method p layout place) {l : Label}
    (hl : l ∈ body.references) {n k : Nat} (hle : place n ≤ k) (hlt : k < place (n + 1)) :
    landing body.events l ≤ n ↔ layout.code.numberOf (layout.offset l) ≤ k := by
  rw [h.number l hl]
  constructor
  · intro hln
    exact Nat.le_trans (h.mono hln) hle
  · intro hplace
    by_contra hnot
    have hbehind : place (n + 1) ≤ place (landing body.events l) := h.mono (by omega)
    omega

/-! ### Handlers that are kept -/

/-- What a placed handler guards, by the numbers of instructions. -/
def Layout.guardOf (layout : Layout) (h : PlacedHandler) : Guard :=
  ⟨layout.code.numberOf h.start, layout.code.numberOf h.stop, layout.code.numberOf h.target.offset⟩

namespace Body.EmittedAs

variable {body : Body} {method : MethodContext} {p : ConstantPool} {code : Bytes} {layout : Layout}
  {parts : Parts}

theorem exists_loweredTo (hp : p.WellFormed) (h : body.EmittedAs method p code layout parts) :
    ∃ place, body.LoweredTo method p layout place := by
  obtain ⟨hlt, widths, hrelayed, hlanding⟩ := h.made.exists_relayed hp h.labels h.ofBody
  refine ⟨placeBy widths, placeBy_mono widths, hlt, hrelayed, fun l hl => ?_⟩
  rw [h.made.numberOf_offset h.filled (h.resolves hp hl), hlanding l hl]

/-- Control that reaches an instruction which a handler guards comes to the handler. -/
theorem reached_of_guarded (hp : p.WellFormed) (h : body.EmittedAs method p code layout parts)
    {handler : Handler} (hmem : handler ∈ body.handlers) {n : Nat} (hlive : body.Live n)
    (hstart : landing body.events handler.start ≤ n)
    (hstop : n < landing body.events handler.stop) :
    body.Live (landing body.events handler.target) ∧
      ∃ e, layout.places[handler.target]? = some e ∧ e.state.isSome = true := by
  have htarget : body.Live (landing body.events handler.target) :=
    hlive.caught ⟨_, _, landing body.events handler.target⟩ (List.mem_map_of_mem hmem) hstart hstop
  have hreference : handler.target ∈ body.references :=
    Body.mem_references_of_handler hmem (by simp)
  obtain ⟨_, hoffset⟩ := h.resolves hp hreference
  obtain ⟨e, he, -⟩ := Except.bind_eq_ok.mp hoffset
  have hplace := Layout.find_eq_ok.mp he
  obtain ⟨events, solution, sized, hrounds, hisOf⟩ := Layout.exists_isOf hp h.ofBody .refl
  exact ⟨htarget, e, hplace,
    hisOf.reached_of_live hp h.labels hrounds hreference htarget hplace⟩

/-- A handler is kept if it guards something and control comes to it. -/
theorem exists_placed (hp : p.WellFormed) (h : body.EmittedAs method p code layout parts)
    {handler : Handler} (hmem : handler ∈ body.handlers)
    (hlt : layout.offset handler.start < layout.offset handler.stop) {e : PlacedEvent}
    (he : layout.places[handler.target]? = some e) (hreached : e.state.isSome = true) :
    ∃ placed ∈ parts.handlers, Layout.Places.Handles layout p handler placed := by
  obtain ⟨all, hall, hhandlers⟩ := h.areOf.handlers
  obtain ⟨r, hr, hfinds⟩ := ((finds_mapM steady_placeHandler hp).mp hall).exists_right hmem
  rcases Layout.placeHandler_cases hp hfinds with ⟨-, hnot⟩ | ⟨placed, rfl, hhandles⟩
  · exact absurd ⟨hlt, e, he, hreached⟩ hnot
  · refine ⟨placed, ?_, hhandles⟩
    rw [hhandlers]
    exact List.mem_filterMap.mpr ⟨_, hr, rfl⟩

/-- A handler that guards a written instruction is kept with what it guards: the instruction has
come from a live one that the handler guards as well. -/
private theorem exists_guardOf (hp : p.WellFormed) (h : body.EmittedAs method p code layout parts)
    {place : Nat → Nat} (hlowered : body.LoweredTo method p layout place) {handler : Handler}
    (hmem : handler ∈ body.handlers) {k : Nat} (hk : k < layout.code.length)
    (hstart : layout.code.numberOf (layout.offset handler.start) ≤ k)
    (hstop : k < layout.code.numberOf (layout.offset handler.stop)) :
    ∃ placed ∈ parts.handlers, layout.guardOf placed = {
      start := layout.code.numberOf (layout.offset handler.start)
      stop := layout.code.numberOf (layout.offset handler.stop)
      target := layout.code.numberOf (layout.offset handler.target) } := by
  have hreferences {l : Label} (hl : l ∈ [handler.start, handler.stop, handler.target]) :=
    Body.mem_references_of_handler hmem hl
  have hoffset : layout.offset handler.start < layout.offset handler.stop := by
    by_contra hle
    have := layout.code.numberOf_mono (Nat.le_of_not_lt hle)
    omega
  rw [← layout.length_program_placed] at hk
  obtain ⟨n, i, -, hlive, hfrom, hto⟩ := hlowered.relayed.exists_origin hk
  simp only [Nat.zero_add] at hlive hfrom hto
  have hfront := (hlowered.landing_le_iff (hreferences (by simp)) hfrom hto).mpr hstart
  have hback : n < landing body.events handler.stop := by
    rw [← Nat.not_le, hlowered.landing_le_iff (hreferences (by simp)) hfrom hto]
    omega
  obtain ⟨-, e, hplace, hreached⟩ := h.reached_of_guarded hp hmem hlive hfront hback
  obtain ⟨placed, hplaced, hhandles⟩ := h.exists_placed hp hmem hoffset hplace hreached
  refine ⟨placed, hplaced, ?_⟩
  rw [Layout.guardOf, hhandles.start_eq, hhandles.stop_eq,
    ← Layout.offset_of_places hhandles.target]

/-- Control reaches everything that is written, with the handlers that are kept. -/
theorem reaches (hp : p.WellFormed) (h : body.EmittedAs method p code layout parts) {k : Nat}
    (hk : k < layout.code.length) :
    Reaches (program (layout.placed.map (·.event))) (parts.handlers.map layout.guardOf) k := by
  obtain ⟨place, hlowered⟩ := h.exists_loweredTo hp
  rw [← layout.length_program_placed] at hk
  have hall := hlowered.relayed.reaches hlowered.mono hlowered.lt hk
  clear hk
  induction hall with
  | entry => exact .entry
  | next _ hi hterminal ih => exact ih.next hi hterminal
  | jump _ hi ht ih => exact ih.jump hi ht
  | @caught n guard _ hguard hstart hstop ih =>
    obtain ⟨guard₀, hguard₀, rfl⟩ := List.mem_map.mp hguard
    obtain ⟨handler, hmem, rfl⟩ := List.mem_map.mp hguard₀
    have hnumber {l : Label} (hl : l ∈ [handler.start, handler.stop, handler.target]) :=
      (hlowered.number l (Body.mem_references_of_handler hmem hl)).symm
    simp only [Guard.map, hnumber (l := handler.start) (by simp),
      hnumber (l := handler.stop) (by simp), hnumber (l := handler.target) (by simp)]
      at hstart hstop ⊢
    have hn : n < layout.code.length :=
      Nat.lt_of_lt_of_le hstop (layout.code.numberOf_le_length _)
    obtain ⟨placed, hplaced, hguard⟩ := h.exists_guardOf hp hlowered hmem hn hstart hstop
    have hcaught := ih.caught (layout.guardOf placed) (List.mem_map_of_mem hplaced)
      (by rw [hguard]; exact hstart) (by rw [hguard]; exact hstop)
    rwa [hguard] at hcaught

end Body.EmittedAs
end ClassPatch
