import ClassPatch.Proofs.Code.Agreement
import ClassPatch.Proofs.Code.FrameNames
import ClassPatch.Proofs.Code.FrameTable
import ClassPatch.Proofs.Code.LabelRounds
import ClassPatch.Proofs.Flow.Pruning
import ClassPatch.Proofs.Flow.Slots

/-!
# Bodies that are not written for want of a label

A body whose supply serves its events, and whose tables and frames name placed labels, is not kept
from being written by a label. All rounds of its layout keep the labels, so whatever is written
later finds its label in the last one; the types that a stack map names come from the frames of the
body and from labels in front of a `new`.
-/

namespace ClassPatch

open PoolM CodeWriter

variable {p : ConstantPool} {crowded : Prop}

/-! ### Stack maps -/

namespace StackMap

variable {offsetOf : Label → Except Error Nat}

theorem limited_half (n : Nat) (limit : Nat → Limit) : Limited p (half n limit) :=
  .ite (.pure _) (.throw ⟨_, rfl⟩)

/-- A type is written if its site has a place. -/
theorem limited_encodeType {t : VerificationType}
    (h : t.IsKnown fun l => ∃ offset, offsetOf l = .ok offset) :
    Limited p (encodeType offsetOf t) := by
  cases t with
  | object name => exact (failsBy_classRef ⟨_, rfl⟩ name).andThen fun _ => .pure _
  | uninitialized site =>
    obtain ⟨offset, hoffset⟩ := h
    unfold encodeType
    dsimp only
    rw [hoffset]
    exact (limited_half _ _).andThen fun _ => .pure _
  | _ => exact .pure _

theorem limited_encodeTypes {types : List VerificationType}
    (h : ∀ t ∈ types, t.IsKnown fun l => ∃ offset, offsetOf l = .ok offset) :
    Limited p (encodeTypes offsetOf types) :=
  (FailsBy.mapM fun t ht => limited_encodeType (h t ht)).andThen fun _ => .pure _

theorem limited_encodeFull (delta : Bytes) {frame : Frame}
    (h : frame.Knows fun l => ∃ offset, offsetOf l = .ok offset) :
    Limited p (encodeFull offsetOf delta frame) :=
  (limited_half _ _).andThen fun _ => (limited_encodeTypes h.locals).andThen fun _ =>
    (limited_half _ _).andThen fun _ => (limited_encodeTypes h.stack).andThen fun _ => .pure _

theorem failsBy_encodeFrame (base : Base) (offset : Nat) {frame : Frame}
    (h : frame.Knows fun l => ∃ offset, offsetOf l = .ok offset) :
    FailsBy (Error.SparesLabels crowded) p (encodeFrame offsetOf base offset frame) := by
  have hlimited {α : Type} {m : PoolM α} (hm : Limited p m) :
      FailsBy (Error.SparesLabels crowded) p m := hm.imp fun _ => Error.sparesLabels_of_limit
  have hadded : ∀ t ∈ frame.locals.drop base.frame.locals.length,
      t.IsKnown fun l => ∃ offset, offsetOf l = .ok offset :=
    fun t ht => h.locals t (List.mem_of_mem_drop ht)
  unfold encodeFrame
  refine .ite ((FailsBy.throw trivial).andThen fun _ => ?_) ?_
  all_goals
    refine (hlimited (limited_half _ _)).andThen fun delta => ?_
    refine .ite (.pure _) (.ite ?_ (.ite ?_ (.ite (.pure _) (hlimited (limited_encodeFull _ h)))))
    · exact (hlimited (limited_encodeTypes h.stack)).andThen fun _ => .pure _
    · exact (hlimited (limited_encodeTypes hadded)).andThen fun _ => .pure _

theorem failsBy_encode {frames : List (Nat × Frame)} (initial : Frame)
    (h : ∀ row ∈ frames, row.2.Knows fun l => ∃ offset, offsetOf l = .ok offset) :
    FailsBy (Error.SparesLabels crowded) p (encode frames initial offsetOf) := by
  refine ((limited_half _ _).imp fun _ => Error.sparesLabels_of_limit).andThen fun _ =>
    (FailsBy.mapM fun row hrow => ?_).andThen fun _ => .pure _
  exact failsBy_encodeFrame row.1 row.2.1 (h row.2 (List.of_mem_zip hrow).2)

end StackMap

/-! ### Sites of states -/

/-- The frame of a state names the sites that the state does. -/
theorem FlowState.Knows.toFrame {known : Label → Prop} {s : FlowState} (h : s.Knows known) :
    s.toFrame.Knows known where
  locals t ht := by
    have hslots := (List.rdropWhile_prefix _ _).subset ht
    exact h.locals t (Array.mem_toList_iff.mp ((VerificationType.ofSlots_sublist _).subset hslots))
  stack t ht := h.stack t (List.mem_reverse.mp ((VerificationType.ofSlots_sublist _).subset ht))

/-- All sites that an analysis finds are placed labels, or named in the declared frames. -/
theorem FlowSolution.knows_of_analyze {known : Label → Prop} {events : List Event}
    {handlers : List Handler} {frames : List (Label × Frame)} {method : MethodContext}
    {maxLocals : UInt16} {solution : FlowSolution}
    (h : analyze events handlers frames method maxLocals = .ok solution)
    (hplaced : ∀ l ∈ placedLabels events, known l)
    (hsites : ∀ row ∈ frames, ∀ l ∈ row.2.sites, known l) {i : Nat} {s : FlowState}
    (hs : solution.states[i]? = some (some s)) : s.Knows known := by
  obtain ⟨g, entry, q, hg, hentry, -, hsearch, hsolution⟩ := exists_search h
  have hreceptive : g.Receptive fun _ s => s.Knows known := by
    refine ⟨fun {i hint incoming} hhint _ _ => ?_, fun _ hs _ hmerge => hs.merge hmerge⟩
    obtain ⟨l, frame, hmem, -, rfl⟩ := FlowGraph.exists_frame_of_hint hg hhint
    have hknows : frame.Knows known := frame.knows_sites.mono (hsites _ hmem)
    exact FlowState.knows_ofFrame (List.forall_mem_append.mpr ⟨hknows.locals, hknows.stack⟩)
  rw [hsolution.states] at hs
  refine hreceptive.allStates (FlowState.knows_entry hentry) (fun {i e s t} _ hs _ ht => ?_)
    (FlowGraph.searches_of_search hsearch) i s hs
  refine FlowGraph.knows_of_edges (fun range hrange => ?_) (fun l hl => ?_) hs ht
  · obtain ⟨handler, -, -, -, -, hcaught⟩ := (FlowGraph.forall₂_ranges hg).exists_left hrange
    rw [hcaught]
    trivial
  · obtain ⟨k, rfl, hk⟩ := FlowGraph.exists_of_labelBefore hg hl
    exact hplaced l (mem_placedLabels.mpr (List.mem_of_getElem? hk))

/-- All sites of the states of a layout have a place. -/
theorem Layout.IsOf.knows {layout : Layout} {body : Body} {method : MethodContext}
    {events : List LayoutEvent} {solution : FlowSolution} {sized : List SizedEvent}
    (hp : p.WellFormed) (h : layout.IsOf body method events solution sized p)
    (hsites : ∀ row ∈ body.frames, ∀ l ∈ row.2.sites, layout.Resolves l) {e : PlacedEvent}
    (he : e ∈ layout.placed) {s : FlowState} (hs : e.state = some s) : s.Knows layout.Resolves := by
  have hplaced : layout.placed.map (·.toLayoutEvent) = (prune events solution).map (·.1) :=
    (h.forall₂_placed hp).map_eq fun _ _ hrow => hrow.1
  have hlength := (FlowSolution.follows h.analyzed).length_eq
  rw [List.length_map] at hlength
  have hresolves : ∀ l ∈ placedLabels (events.map (·.event)), layout.Resolves l := by
    intro l hl
    have hkept := mem_placedLabels_prune hlength hl
    rw [← hplaced, List.map_map] at hkept
    exact (h.madeIn hp).resolves hkept
  obtain ⟨i, -, hstate, -⟩ := h.exists_position hp he
  exact FlowSolution.knows_of_analyze h.analyzed hresolves hsites (hs ▸ hstate)

/-! ### Parts of the code attribute -/

namespace CodeWriter

variable {layout : Layout} {method : MethodContext}

/-- A handler is placed if its labels are. -/
theorem limited_placeHandler {h : Handler}
    (hresolves : ∀ l ∈ [h.start, h.stop, h.target], layout.Resolves l) :
    Limited p (placeHandler layout.places h) := by
  have hfound {l : Label} (hl : layout.Resolves l) : ∃ e, layout.places.find l = .ok e := by
    obtain ⟨offset, hoffset⟩ := hl
    obtain ⟨e, he, -⟩ := Except.bind_eq_ok.mp hoffset
    exact ⟨e, he⟩
  obtain ⟨target, htarget⟩ := hfound (hresolves h.target (by simp))
  refine (failsBy_ofExcept (.of_eq_ok (hresolves h.start (by simp)).offsetOf_eq)).andThen fun _ =>
    (failsBy_ofExcept (.of_eq_ok (hresolves h.stop (by simp)).offsetOf_eq)).andThen fun _ =>
    (failsBy_ofExcept (.of_eq_ok htarget)).andThen fun _ => .ite ?_ (.pure _)
  split
  · exact (failsBy_classRef ⟨_, rfl⟩ _).andThen fun _ => .pure _
  · exact .pure _

/-- Where all targets have a place, and all sites, no label keeps the stack map from being
written. -/
theorem failsBy_stackMap {handlers : List PlacedHandler}
    (htargets : ∀ e ∈ layout.placed, ∀ l ∈ e.event.targets, layout.Resolves l)
    (hstates : ∀ e ∈ layout.placed, ∀ s, e.state = some s → s.Knows layout.Resolves)
    (hhandlers : ∀ h ∈ handlers, ∃ l : Label, layout.places[l]? = some h.target) :
    FailsBy (Error.SparesLabels crowded) p (stackMap layout.places layout handlers method) := by
  have hresolves : ∀ l ∈ layout.jumpTargets handlers, ∃ e, layout.places[l]? = some e := by
    intro l hl
    rcases Layout.mem_jumpTargets.mp hl with ⟨e, he, hl⟩ | ⟨h, hh, hl⟩
    · obtain ⟨offset, hoffset⟩ := htargets e he l hl
      obtain ⟨e', he', -⟩ := Except.bind_eq_ok.mp hoffset
      exact ⟨e', Layout.find_eq_ok.mp he'⟩
    · obtain ⟨l', hl'⟩ := hhandlers h hh
      obtain rfl := Event.label.inj ((Layout.mem_of_places hl').2.symm.trans hl)
      exact ⟨h.target, hl'⟩
  obtain ⟨frames, hframes⟩ := Layout.exists_frames hresolves
  have hknows : ∀ row ∈ frames, row.2.Knows layout.Resolves := by
    intro row hrow
    obtain ⟨l, -, e, s, hplace, hs, rfl⟩ := Layout.mem_frames hframes row hrow
    exact (hstates e (Layout.mem_of_places hplace).1 s hs).toFrame
  have hentry : Except.FailsBy (Error.SparesLabels crowded) (Frame.entry method) :=
    ((MethodDescriptor.failsBy_parse _).mono fun _ => Error.IsFault.sparesLabels).bind fun _ _ =>
      .pure _
  refine .ite (.pure _)
    ((failsBy_ofExcept (.of_eq_ok hframes)).bind (fun _ => ?_) fun _ _ hfound => ?_)
  · refine .ite (.pure _)
      ((steady_ofExcept _).bind fun _ => (StackMap.steady_encode _ _).bind fun _ =>
      (steady_text _).bind fun _ => .pure _)
  · obtain rfl := Except.ok.inj (hframes.symm.trans (finds_ofExcept.mp hfound))
    exact .ite (.pure _) ((failsBy_ofExcept hentry).andThen fun initial =>
      (StackMap.failsBy_encode initial hknows).andThen fun _ =>
        (failsBy_text trivial _).andThen fun _ => .pure _)

end CodeWriter

/-! ### Bodies -/

/-- The supply of a body serves its events, and its tables and frames name labels that are
placed. -/
structure Body.Served (body : Body) : Prop where
  events : body.labels.Serves body.events
  references : ∀ l ∈ body.references, l ∈ ClassPatch.placedLabels body.events
  sites : ∀ row ∈ body.frames, ∀ l ∈ row.2.sites, l ∈ ClassPatch.placedLabels body.events

namespace Body.Served

variable {body : Body} {method : MethodContext}

/-- The first round of the layout of a body starts with its events. -/
theorem start (h : body.Served) :
    Layout.Served body body.events.length (body.events.map (⟨·, false⟩)) body.labels := by
  have hlabels := Layout.labelCount_le (body.events.map (⟨·, false⟩))
  rw [List.length_map] at hlabels
  refine ⟨?_, fun handler hh l hl => ?_, hlabels⟩
  · rw [Layout.map_event_plain]
    exact h.events
  · rw [Layout.map_event_plain]
    exact h.references l (Body.mem_references_of_handler hh hl)

theorem failsBy_checkLabels (h : body.Served) :
    Except.FailsBy (Error.SparesLabels (UInt32.size < body.events.length)) body.checkLabels := by
  by_cases hnodup : (ClassPatch.placedLabels body.events).Nodup
  · exact .of_eq_ok (Body.checkLabels_of_placed hnodup h.references)
  · refine (Body.failsBy_checkLabels hnodup).mono ?_
    rintro e ⟨l, rfl⟩
    refine h.start.crowded ?_
    rwa [Layout.map_event_plain]

/-- No label keeps what has been laid out from being written. -/
theorem failsBy_payload (h : body.Served) (hp : p.WellFormed) {layout : Layout}
    (hlabels : body.checkLabels = .ok ()) (hfinds : Finds (Layout.ofBody body method) p layout)
    (hattributes : ∀ a ∈ body.attributes, CodeAttribute.IsOther p a) :
    FailsBy (Error.SparesLabels crowded) p (payload body method layout) := by
  obtain ⟨events, solution, sized, -, hisOf⟩ := Layout.exists_isOf hp hfinds .refl
  have hmade := hisOf.madeIn hp
  have hplaced : ∀ l ∈ ClassPatch.placedLabels body.events, layout.Resolves l := fun l hl =>
    hmade.resolves_of_placed hp hlabels hfinds hl
  have hbytes : FailsBy (Error.SparesLabels crowded) p (instructionBytes layout.places layout) := by
    refine ((Layout.agrees_of_ofBody hp hlabels).2 hfinds).fails.imp fun e he => ?_
    cases he <;> trivial
  have hresolves : ∀ l ∈ body.references, layout.Resolves l := fun l hl =>
    hplaced l (h.references l hl)
  refine CodeWriter.failsBy_payload
    (P := fun placed => ∃ l : Label, layout.places[l]? = some placed.target)
    (fun _ => trivial) hbytes (fun handler hh => ⟨?_, fun {q placed} hq hplace => ?_⟩)
    (fun handlers hhandlers => ?_) hresolves hattributes
  · exact (limited_placeHandler fun l hl =>
      hresolves l (Body.mem_references_of_handler hh hl)).imp fun _ => Error.sparesLabels_of_limit
  · rcases Layout.placeHandler_cases hq hplace with ⟨hnone, -⟩ | ⟨placed', hsome, hhandles⟩
    · cases hnone
    · obtain rfl := Option.some.inj hsome
      exact ⟨_, hhandles.target⟩
  · refine failsBy_stackMap (fun e he l hl => ?_) (fun e he s hs => ?_) hhandlers
    · exact Layout.resolves_of_target hp hlabels hfinds hmade he hl
    · exact hisOf.knows hp (fun row hrow l hl => hplaced l (h.sites row hrow l hl)) he hs

/-- No label keeps a body from being encoded, unless it has more events than there are labels. -/
theorem failsBy_encode (h : body.Served)
    (hattributes : ∀ a ∈ body.attributes, CodeAttribute.IsOther p a) :
    FailsBy (Error.SparesLabels (UInt32.size < body.events.length)) p (body.encode method) :=
  Body.failsBy_encode (fun _ => trivial) h.failsBy_checkLabels h.start.failsBy_ofEvents
    fun hq hwf hlabels hfinds => h.failsBy_payload hwf hlabels hfinds fun a ha =>
      (hattributes a ha).mono hq

end Body.Served
end ClassPatch
