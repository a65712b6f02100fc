import ClassPatch.Proofs.Flow.Consistency
import ClassPatch.Proofs.Flow.Locals

/-!
# States and the frames that declare them

A state declares its locals by value, without the second halves of wide values and without the
unusable slots at the end. Nothing else is lost with them where the locals are whole words: those of
the declared frame come out of it again, in front of unusable slots. A store over one half of a wide
value, a merge with other locals, a frame and a handler all leave whole words, so this holds of
every state of an analysis.
-/

namespace ClassPatch

open VerificationType

namespace FlowState

variable {s : FlowState}

/-- The words that a state declares are those that it has, up to unusable slots at the end. -/
theorem WholeLocals.exists_tops (h : s.WholeLocals) :
    ∃ count, s.locals = (ofFrame s.toFrame).locals ++ Array.replicate count .top := by
  obtain ⟨count, hcount⟩ := exists_dropTrailingTops (ofSlots s.locals.toList)
  refine ⟨count, ?_⟩
  apply Array.toList_inj.mp
  rw [Array.toList_append, Array.toList_replicate]
  calc s.locals.toList
    _ = toSlots (ofSlots s.locals.toList) := h.toSlots_ofSlots.symm
    _ = toSlots s.toFrame.locals ++ toSlots (List.replicate count .top) := by
      rw [← toSlots_append]
      exact congrArg toSlots hcount
    _ = toSlots s.toFrame.locals ++ List.replicate count .top := by rw [toSlots_replicate_top]

end FlowState

namespace FlowSolution

variable {events : List Event} {handlers : List Handler} {frames : List (Label × Frame)}
  {method : MethodContext} {maxLocals : UInt16} {solution : FlowSolution}

/-- In every state of an analysis the second half of a wide value stands behind the first, and the
frame that the state declares gives its locals back, in front of unusable slots. -/
theorem wholeLocals_of_analyze (h : analyze events handlers frames method maxLocals = .ok solution)
    {i : Nat} {s : FlowState} (hs : solution.state? i = some s) :
    (∀ k t, s.locals[k]? = some t → t.isWide = true → s.locals[k + 1]? = some .top) ∧
      ∃ count, s.locals = (FlowState.ofFrame s.toFrame).locals ++ Array.replicate count .top := by
  obtain ⟨g, frame, p, hg, -, -, hsearch, hsolution⟩ := exists_search h
  have hwhole : s.WholeLocals :=
    FlowGraph.wholeLocals_of_searches hg (FlowState.wholeLocals_ofFrame frame)
      (FlowGraph.searches_of_search hsearch) i s (hsolution.state?_eq_some.mp hs)
  exact ⟨FlowState.wholeLocals_iff.mp hwhole, hwhole.exists_tops⟩

/-- A `double` is stored over the second half of a parameter, and a `long` over that of the
`double`. Three paths with different locals meet, one of them from a handler. -/
theorem wholeLocals_of_analyze_overlapping :
    let method : MethodContext := ⟨"A", "m", "(JI)V", true, 52⟩
    let events : List Event := [.label ⟨0⟩, .instr (.load .int 2),
      .instr (.jump (.branch .ifEq) ⟨2⟩), .instr (.push (.double 0)), .instr (.store .double 1),
      .label ⟨1⟩, .instr (.push (.long 0)), .instr (.store .long 2), .label ⟨2⟩,
      .instr (.leave none),
      .label ⟨3⟩, .instr (.plain Opcode.pop), .instr (.jump .goto ⟨2⟩)]
    let handlers : List Handler := [⟨⟨0⟩, ⟨1⟩, ⟨3⟩, some "E"⟩]
    let s : FlowState := ⟨#[.top, .double, .top], []⟩
    ∃ solution, analyze events handlers [] method 0 = .ok solution ∧ solution.state? 5 = some s ∧
      (∀ k t, s.locals[k]? = some t → t.isWide = true → s.locals[k + 1]? = some .top) ∧
        ∃ count, s.locals = (FlowState.ofFrame s.toFrame).locals ++ Array.replicate count .top := by
  intro method events handlers s
  let solution : FlowSolution :=
    let entry : Array VerificationType := #[.long, .top, .integer]
    let stored : Array VerificationType := #[.top, .double, .top]
    let merged : Array VerificationType := #[.top, .top, .top]
    ⟨#[some ⟨entry, []⟩, some ⟨entry, []⟩, some ⟨entry, [.integer]⟩, some ⟨entry, []⟩,
      some ⟨entry, [.top, .double]⟩, some ⟨stored, []⟩, some ⟨stored, []⟩,
      some ⟨stored, [.top, .long]⟩, some ⟨merged, []⟩, some ⟨merged, []⟩,
      some ⟨merged, [.object "E"]⟩, some ⟨merged, [.object "E"]⟩, some ⟨merged, []⟩], 2, 4⟩
  have hanalysis : analyze events handlers [] method 0 = .ok solution := by cbv
  have hs : solution.state? 5 = some s := rfl
  exact ⟨solution, hanalysis, hs, wholeLocals_of_analyze hanalysis hs⟩

end FlowSolution
end ClassPatch
