import ClassPatch.Proofs.Code.Reanalysis
import ClassPatch.Proofs.Evaluation

/-!
# Encoding again

What has been encoded and is decoded again is encoded to the same bytes, with nothing new in the
pool. The frames that a body declares where control only goes on from the instruction in front are
not written, so the second analysis may see other types there: it must not come to separate a value
from its second half.
-/

namespace ClassPatch

open PoolM CodeWriter

/-- The analysis of a body that is encoded has succeeded. -/
theorem Body.exists_analyze_of_encode {body : Body} {method : MethodContext} {code : Bytes}
    {pool pool' : ConstantPool} (hpool : pool.WellFormed)
    (h : body.encode method pool = .ok code pool') : ∃ solution,
      analyze body.events body.handlers body.frames method body.maxLocals = .ok solution := by
  have hsteady := (body.splits_encode method).steady
  have hpool' := hsteady.wellFormed hpool h
  obtain ⟨-, layout, hlayout, -⟩ :=
    ((body.splits_encode method).finds hpool').mp (hsteady.finds hpool h)
  rw [Layout.ofBody, Layout.ofEvents_eq] at hlayout
  obtain ⟨solution, hsolution, -⟩ := (finds_bind (Layout.steady_analyze _)
    (fun _ => (Layout.steady_measure _).bind fun _ => Layout.steady_finish _ _ _ _) hpool').mp
    hlayout
  have hanalyzed := Layout.finds_analyze hsolution
  rw [Layout.map_event_plain] at hanalyzed
  exact ⟨solution, hanalyzed⟩

/-- What is needed of a body and of what is read back of it for both to be encoded alike: the sites
of new objects that the written frames name have come to different offsets, and no reference is
loaded from what is an array of longs or doubles. -/
structure Body.Regular (body : Body) (method : MethodContext) (pool : ConstantPool) (code : Bytes)
    (body' : Body) : Prop where
  sites : ∀ layout parts frames, body.EncodedAs method pool code layout parts →
    layout.HasFrames parts.handlers method frames →
      Set.InjOn layout.offset {l | ∃ row ∈ frames, l ∈ row.2.sites}
  loads : ∀ layout parts, body.EncodedAs method pool code layout parts → ∀ e ∈ layout.placed,
    ∀ s, e.state = some s → e.event.LoadsWord s
  loadsAgain : ∀ i e s, body'.events[i]? = some e → body'.Computes method i s → e.LoadsWord s

/-- Whenever what has been encoded and decoded again is encoded, nothing is added to the pool, and
it is the same again if no operand stack of the second analysis separates a value from its second
half. From major version 50 on it is encoded, if no operand stack of the first analysis does, and
none of the second one either where the bound on the locals leaves no room. -/
theorem Body.encode_again {data code : Bytes} {body body' : Body} {method : MethodContext}
    {pool pool' : ConstantPool} (hpool : pool.WellFormed)
    (hdecoded : Body.decode data pool method = .ok body)
    (hencoded : body.encode method pool = .ok code pool')
    (hagain : Body.decode code pool' method = .ok body')
    (hregular : body.Regular method pool' code body') :
    (∀ code' q, body'.encode method pool' = .ok code' q → q = pool' ∧
      ((∀ i s, body'.Computes method i s → s.WholeStack) → code' = code)) ∧
    (50 ≤ method.majorVersion →
      (∀ layout parts, body.EncodedAs method pool' code layout parts → ∀ e ∈ layout.placed,
        ∀ s, e.state = some s → s.WholeStack) →
      (∀ i s, body'.Computes method i s → s.WholeStack) ∨ body'.maxLocals < 65535 →
        ∃ code', body'.encode method pool' = .ok code' pool') := by
  have hsteady := (body.splits_encode method).steady
  have hpool' := hsteady.wellFormed hpool hencoded
  have hproper := (Body.properIn_of_decode hdecoded).mono (hsteady.le hpool hencoded)
  obtain ⟨layout, parts, marks, table, frames, hread⟩ :=
    Body.exists_readBack hpool' hproper (hsteady.finds hpool hencoded)
  obtain rfl := Except.ok.inj (hagain.symm.trans hread.decoded)
  obtain ⟨events, solution, sized, -, hisOf⟩ := Layout.exists_isOf hpool' hread.ofBody .refl
  have hloads := hregular.loads layout parts hread.toEncodedAs
  have hsites : Separates (fun l => ∃ row ∈ frames, l ∈ row.2.sites) (layout.relabel table) := by
    intro l l' hl hl' heq
    have hmark {l : Label} (hl : ∃ row ∈ frames, l ∈ row.2.sites) : layout.offset l ∈ marks := by
      obtain ⟨row, hrow, hl⟩ := hl
      exact (hread.hasMarks.sites row hrow l hl).2
    exact hregular.sites layout parts frames hread.toEncodedAs hread.hasFrames hl hl'
      (hread.hasTable.inj (hmark hl) (hmark hl') heq)
  -- all but the two bounds is written again whatever the second analysis finds
  have hfinds {solution' : FlowSolution}
      (hanalyzed : analyze (layout.reread body parts pool' table frames).events
        (layout.reread body parts pool' table frames).handlers
        (layout.reread body parts pool' table frames).frames method
        (layout.reread body parts pool' table frames).maxLocals = .ok solution') :
      Finds ((layout.reread body parts pool' table frames).encode method) pool' (parts.bytes
        { layout with maxStack := solution'.maxStack, maxLocals := solution'.maxLocals }) := by
    obtain ⟨layout', sized', hofBody, hisOf', hplaced, hrepeats⟩ :=
      hread.exists_repeats hpool' hanalyzed
    exact Body.LaidAgain.finds_again ⟨hread, hrepeats, hofBody, hisOf', hplaced⟩ hpool' hsites
  have hbytes {solution' : FlowSolution}
      (hanalyzed : analyze (layout.reread body parts pool' table frames).events
        (layout.reread body parts pool' table frames).handlers
        (layout.reread body parts pool' table frames).frames method
        (layout.reread body parts pool' table frames).maxLocals = .ok solution')
      (hwhole : ∀ i s, (layout.reread body parts pool' table frames).Computes method i s →
        s.WholeStack) :
      parts.bytes { layout with maxStack := solution'.maxStack, maxLocals := solution'.maxLocals } =
        code := by
    obtain ⟨hstack, hlocals⟩ :=
      hread.bounds_of_analyze hpool' hisOf hloads hregular.loadsAgain hanalyzed
    rw [hstack, hlocals hwhole, hread.bytes]
  refine ⟨fun code' q hencode => ?same, fun hnew hwhole hroom => ?succeeds⟩
  case same =>
    obtain ⟨solution', hanalyzed⟩ := Body.exists_analyze_of_encode hpool' hencode
    obtain ⟨rfl, rfl⟩ := EStateM.Result.ok.inj (hencode.symm.trans (hfinds hanalyzed))
    exact ⟨rfl, hbytes hanalyzed⟩
  case succeeds =>
    obtain ⟨solution', hanalyzed⟩ := hread.exists_analyze hpool' hisOf hloads hregular.loadsAgain
      (UInt16.not_lt.mpr hnew) (hwhole layout parts hread.toEncodedAs) hroom
    exact ⟨_, hfinds hanalyzed⟩

/-! ### A loop -/

/-- A pool that names stack maps and a class. -/
private def stackMapNames : ConstantPool :=
    .ofSlots #[none, some (.utf8 [83, 116, 97, 99, 107, 77, 97, 112,
  84, 97, 98, 108, 101]), some (.utf8 [65]), some (.classRef 2)]

private theorem wellFormed_stackMapNames : stackMapNames.WellFormed :=
  ConstantPool.wellFormed_ofSlots rfl (by decide)

private theorem text_stackMapNames : stackMapNames.text 1 = .ok CodeAttribute.stackMapTable := by
  cbv

/-- A long is tested again and again until it is not zero. -/
private def waiting : Body where
  maxStack := 2
  maxLocals := 2
  events := [.label ⟨0⟩, .instr (.load .long 0), .instr (.plain Opcode.l2i),
    .instr (.jump (.branch .ifEq) ⟨0⟩), .instr (.leave none)]
  handlers := []
  lines := []
  localVariables := []
  localVariableTypes := []
  frames := []
  attributes := []
  labels := ⟨1⟩

/-- The loop where it is placed. -/
private def waitingLayout : Layout where
  placed :=
    [⟨⟨⟨.label ⟨0⟩, false⟩, some ⟨#[.long, .top], []⟩, .fixed 0, false⟩, 0⟩,
      ⟨⟨⟨.instr (.load .long 0), false⟩, some ⟨#[.long, .top], []⟩, .fixed 1, false⟩, 0⟩,
      ⟨⟨⟨.instr (.plain Opcode.l2i), false⟩, some ⟨#[.long, .top], [.top, .long]⟩, .fixed 1, false⟩,
        1⟩,
      ⟨⟨⟨.instr (.jump (.branch .ifEq) ⟨0⟩), false⟩, some ⟨#[.long, .top], [.integer]⟩,
        .jump (.branch .ifEq) ⟨0⟩, false⟩, 2⟩,
      ⟨⟨⟨.instr (.leave none), false⟩, some ⟨#[.long, .top], []⟩, .fixed 1, false⟩, 5⟩]
  length := 6
  maxStack := 2
  maxLocals := 2

/-- The loop with the frame that is written for it. -/
private def waitingAgain : Body := { waiting with frames := [(⟨0⟩, ⟨[.long], []⟩)] }

/-- No state of the second analysis separates the long from its second half. -/
private theorem wholeStack_waitingAgain {i : Nat} {s : FlowState}
    (h : waitingAgain.Computes ⟨"A", "m", "(J)V", true, 52⟩ i s) : s.WholeStack := by
  have hstates : (waitingAgain.statesWithin ⟨"A", "m", "(J)V", true, 52⟩ 6).map
      (fun states => states.all fun s => s.all fun s => decide s.WholeStack) = some true := by
    cbv
  obtain ⟨states, hwithin, hwhole⟩ := Option.map_eq_some_iff.mp hstates
  exact of_decide_eq_true (List.all_eq_true.mp hwhole (some s) (h.mem_statesWithin hwithin))

private theorem layout_waiting {code : Bytes} {layout : Layout} {parts : Parts}
    (h : waiting.EncodedAs ⟨"A", "m", "(J)V", true, 52⟩ stackMapNames code layout parts) :
    layout = waitingLayout := by
  have hlayout : Layout.ofBody waiting ⟨"A", "m", "(J)V", true, 52⟩ stackMapNames =
      .ok waitingLayout stackMapNames := by
    cbv
  exact (EStateM.Result.ok.inj (h.ofBody.symm.trans hlayout)).1

/-- The frame of the loop names no new object, and no reference is loaded from an array. -/
private theorem regular_waiting {code : Bytes} :
    waiting.Regular ⟨"A", "m", "(J)V", true, 52⟩ stackMapNames code waitingAgain := by
  refine ⟨fun layout parts frames h hframes => ?sites, fun layout parts h e he s hs hload => ?loads,
    fun i e s he hcomputes hload => ?loadsAgain⟩
  case sites =>
    obtain rfl := layout_waiting h
    have hhandlers : parts.handlers = [] := by
      obtain ⟨placed, hfound, heq⟩ := h.areOf.handlers
      obtain rfl := (EStateM.Result.ok.inj hfound).1
      exact heq
    have hfound : CodeWriter.frames waitingLayout.places (waitingLayout.jumpTargets []) =
        .ok [(0, ⟨[.long], []⟩)] := by
      cbv
    rw [Layout.HasFrames, if_neg (by decide), hhandlers, hfound] at hframes
    obtain rfl := Except.ok.inj hframes
    intro l hl
    simp [Frame.sites] at hl
  case loads =>
    obtain rfl := layout_waiting h
    have hnone : ∀ e ∈ waitingLayout.placed, e.event ≠ .instr (.plain Opcode.aaload) := by decide
    exact absurd hload (hnone e he)
  case loadsAgain =>
    have hnone : ∀ e ∈ waitingAgain.events, e ≠ .instr (.plain Opcode.aaload) := by decide
    exact absurd hload (hnone e (List.mem_of_getElem? he))

/-- What is written for the loop is written for it again. -/
theorem Body.encode_again_waiting :
    let method : MethodContext := ⟨"A", "m", "(J)V", true, 52⟩
    let code : Bytes :=
      [0, 2, 0, 2, 0, 0, 0, 6, 30, 136, 153, 255, 254, 177, 0, 0, 0, 1, 0, 1, 0, 0, 0, 3, 0, 1, 0]
    Body.decode [0, 2, 0, 2, 0, 0, 0, 6, 30, 136, 153, 255, 254, 177, 0, 0, 0, 0]
        stackMapNames method = .ok waiting ∧
      waiting.encode method stackMapNames = .ok code stackMapNames ∧
      Body.decode code stackMapNames method = .ok waitingAgain ∧
      waitingAgain.encode method stackMapNames = .ok code stackMapNames := by
  intro method code
  have hdecoded : Body.decode [0, 2, 0, 2, 0, 0, 0, 6, 30, 136, 153, 255, 254, 177, 0, 0, 0, 0]
      stackMapNames method = .ok waiting := by
    cbv
  have hencoded : waiting.encode method stackMapNames = .ok code stackMapNames := by
    cbv
  have hagain : Body.decode code stackMapNames method = .ok waitingAgain := by
    rw [Body.decode, CodeListing.read,
      CodeAttribute.ofAttribute_eq_of_stackMapTable text_stackMapNames]
    cbv
  obtain ⟨hsame, hsucceeds⟩ :=
    Body.encode_again wellFormed_stackMapNames hdecoded hencoded hagain regular_waiting
  have hwhole : ∀ e ∈ waitingLayout.placed, e.state.all (fun s => decide s.WholeStack) = true := by
    decide
  obtain ⟨code', hcode'⟩ := hsucceeds (by decide) (fun layout parts h e he s hs => by
    obtain rfl := layout_waiting h
    exact of_decide_eq_true (by simpa [hs] using hwhole e he)) (.inr (by decide))
  obtain rfl := (hsame code' stackMapNames hcode').2 fun i s => wholeStack_waitingAgain
  exact ⟨hdecoded, hencoded, hagain, hcode'⟩

/-! ### Where it is not encoded alike -/

/-- The frame of two integers that the long is declared to be is not written, and the first half of
the long is stored as a reference when it is analyzed again: one more local is needed. -/
theorem Body.not_encode_again :
    let method : MethodContext := ⟨"A", "m", "()V", true, 52⟩
    let stored : Bytes := [0, 2, 0, 1, 0, 0, 0, 4, 9, 75, 75, 177, 0, 0, 0, 1, 0, 1, 0, 0, 0, 11,
      0, 1, 255, 0, 1, 0, 0, 0, 2, 1, 1]
    ∃ body code body' code', stackMapNames.WellFormed ∧
      Body.decode stored stackMapNames method = .ok body ∧
      body.encode method stackMapNames = .ok code stackMapNames ∧
      Body.decode code stackMapNames method = .ok body' ∧
      body'.encode method stackMapNames = .ok code' stackMapNames ∧ code' ≠ code := by
  intro method stored
  let written : Body := ⟨2, 1, [.instr (.push (.long 0)), .instr (.store .reference 0),
    .instr (.store .reference 0), .instr (.leave none)], [], [], [], [], [], [], ⟨0⟩⟩
  let declared : Body := { written with
    events := [.instr (.push (.long 0)), .label ⟨0⟩, .instr (.store .reference 0),
      .instr (.store .reference 0), .instr (.leave none)]
    frames := [(⟨0⟩, ⟨[], [.integer, .integer]⟩)]
    labels := ⟨1⟩ }
  have hdecoded : Body.decode stored stackMapNames method = .ok declared := by
    rw [Body.decode, CodeListing.read,
      CodeAttribute.ofAttribute_eq_of_stackMapTable text_stackMapNames]
    cbv
  have hencoded : declared.encode method stackMapNames =
      .ok [0, 2, 0, 1, 0, 0, 0, 4, 9, 75, 75, 177, 0, 0, 0, 0] stackMapNames := by
    cbv
  have hagain : Body.decode [0, 2, 0, 1, 0, 0, 0, 4, 9, 75, 75, 177, 0, 0, 0, 0] stackMapNames
      method = .ok written := by
    cbv
  have hdiffers : written.encode method stackMapNames =
      .ok [0, 2, 0, 2, 0, 0, 0, 4, 9, 75, 75, 177, 0, 0, 0, 0] stackMapNames := by
    cbv
  exact ⟨_, _, _, _, wellFormed_stackMapNames, hdecoded, hencoded, hagain, hdiffers, by decide⟩

/-- The frames of two jumps name the sites of two new objects, of which the first is not reached and
left out: its site comes to the other one, and so the second frame is stored shorter the next
time. -/
theorem Body.not_encode_again_of_sites :
    let method : MethodContext := ⟨"A", "m", "()V", true, 52⟩
    let stored : Bytes :=
      [0, 1, 0, 1, 0, 0, 0, 17, 167, 0, 6, 187, 0, 3, 187, 0, 3, 87, 167, 0, 3, 167, 0, 3, 177, 0,
        0, 0, 1, 0, 1, 0, 0, 0, 18, 0, 2, 252, 0, 13, 8, 0, 3, 255, 0, 2, 0, 1, 8, 0, 6, 0, 0]
    ∃ body code body' code', Body.decode stored stackMapNames method = .ok body ∧
      body.encode method stackMapNames = .ok code stackMapNames ∧
      Body.decode code stackMapNames method = .ok body' ∧
      body'.encode method stackMapNames = .ok code' stackMapNames ∧ code' ≠ code := by
  intro method stored
  let declared : Body := ⟨1, 1, [.instr (.jump .goto ⟨1⟩), .label ⟨0⟩,
    .instr (.typeUse .newObject "A"), .label ⟨1⟩, .instr (.typeUse .newObject "A"),
    .instr (.plain Opcode.pop), .instr (.jump .goto ⟨2⟩), .label ⟨2⟩, .instr (.jump .goto ⟨3⟩),
    .label ⟨3⟩, .instr (.leave none)], [], [], [], [],
    [(⟨2⟩, ⟨[.uninitialized ⟨0⟩], []⟩), (⟨3⟩, ⟨[.uninitialized ⟨1⟩], []⟩)], [], ⟨4⟩⟩
  let written : Body := ⟨1, 1, [.instr (.jump .goto ⟨0⟩), .label ⟨0⟩,
    .instr (.typeUse .newObject "A"), .instr (.plain Opcode.pop), .instr (.jump .goto ⟨1⟩),
    .label ⟨1⟩,
    .instr (.jump .goto ⟨2⟩), .label ⟨2⟩, .instr (.leave none)], [], [], [], [],
    [(⟨0⟩, ⟨[], []⟩), (⟨1⟩, ⟨[.uninitialized ⟨0⟩], []⟩), (⟨2⟩, ⟨[.uninitialized ⟨0⟩], []⟩)],
    [], ⟨3⟩⟩
  have hdecoded : Body.decode stored stackMapNames method = .ok declared := by
    rw [Body.decode, CodeListing.read,
      CodeAttribute.ofAttribute_eq_of_stackMapTable text_stackMapNames]
    cbv
  have hencoded : declared.encode method stackMapNames =
      .ok [0, 1, 0, 1, 0, 0, 0, 14, 167, 0, 3, 187, 0, 3, 87, 167, 0, 3, 167, 0, 3, 177, 0, 0, 0, 1,
        0, 1, 0, 0, 0, 19, 0, 3, 3, 252, 0, 6, 8, 0, 3, 255, 0, 2, 0, 1, 8, 0, 3, 0, 0]
        stackMapNames := by
    cbv
  have hagain :
      Body.decode [0, 1, 0, 1, 0, 0, 0, 14, 167, 0, 3, 187, 0, 3, 87, 167, 0, 3, 167, 0, 3, 177, 0,
        0, 0, 1, 0, 1, 0, 0, 0, 19, 0, 3, 3, 252, 0, 6, 8, 0, 3, 255, 0, 2, 0, 1, 8, 0, 3, 0, 0]
      stackMapNames method = .ok written := by
    rw [Body.decode, CodeListing.read,
      CodeAttribute.ofAttribute_eq_of_stackMapTable text_stackMapNames]
    cbv
  have hdiffers : written.encode method stackMapNames =
      .ok [0, 1, 0, 1, 0, 0, 0, 14, 167, 0, 3, 187, 0, 3, 87, 167, 0, 3, 167, 0, 3, 177, 0, 0, 0, 1,
        0, 1, 0, 0, 0, 10, 0, 3, 3, 252, 0, 6, 8, 0, 3, 2] stackMapNames := by
    cbv
  exact ⟨_, _, _, _, hdecoded, hencoded, hagain, hdiffers, by decide⟩

end ClassPatch
