import ClassPatch.Proofs.Code.Decodable
import ClassPatch.Proofs.Code.LabelFaults
import ClassPatch.Proofs.Code.LabelNumbers
import ClassPatch.Proofs.Evaluation
import ClassPatch.Proofs.Patch.LabelKeeping

/-!
# Labels from decoding to encoding

Decoding numbers the labels of a body by offsets and leaves a supply that serves its events. Patches
keep it serving, and the labels that tables and frames name placed. So when the body is encoded, in
whatever larger pool, no label is missing, in the first round of its layout or in a later one, and
none is placed twice before 32 bits are used up.
-/

namespace ClassPatch

open PoolM

/-- The supply of a decoded body serves its events. -/
theorem Body.served_of_decode {data : Bytes} {p : ConstantPool} {method : MethodContext}
    {body : Body} (h : Body.decode data p method = .ok body) : body.Served := by
  obtain ⟨⟨listing, offsets, -, hnumbered⟩, hrefers⟩ := Body.exists_numberedBy h
  have hlength : (ClassPatch.placedLabels body.events).length = offsets.length := by
    simp [hnumbered.placed]
  refine ⟨⟨⟨?next, ?numbered⟩, fun e he l hl => ?targets, ?news⟩, hrefers.references, hrefers.sites⟩
  case next => rw [hlength, ← hnumbered.next, UInt32.ofNat_toNat]
  case numbered => rw [hlength, hnumbered.placed]
  case targets =>
    cases e with
    | label l' => cases hl
    | instr i => exact hrefers.references l (Body.mem_references_of_target he hl)
  case news =>
    exact newsMarked_iff.mpr fun i className hi => .inr (hrefers.news i className hi)

namespace Patch

variable {patch : Patch} {method : MethodContext} {body changed : Body} {log log' : Log}

/-- A patch changes the events of a body as its pipeline does. -/
theorem exists_run_of_patchBody (h : patch.patchBody method body log = .ok (.ok changed) log') :
    ∃ events r, patch.pipeline.run method body.events ⟨body.labels, log⟩ = .ok events r ∧
      changed = { body with events, labels := r.labels } := by
  unfold patchBody at h
  split at h
  · rename_i events r hrun
    exact ⟨events, r, hrun, (Except.ok.inj (EStateM.Result.ok.inj h).1).symm⟩
  · cases h

/-- A patch of strategies leaves the supply of a body serving its events. -/
theorem served_patchBody (hpipeline : patch.pipeline.OfStrategies) (hserved : body.Served)
    (h : patch.patchBody method body log = .ok (.ok changed) log') : changed.Served := by
  obtain ⟨events, r, hrun, rfl⟩ := exists_run_of_patchBody h
  obtain ⟨hserves, hplaced⟩ := Pipeline.serves hpipeline hserved.events log events r hrun
  refine ⟨hserves, fun l hl => ?_, fun row hrow l hl => hplaced l (hserved.sites row hrow l hl)⟩
  have hkept (hl : l ∈ body.references) : l ∈ placedLabels events :=
    hplaced l (hserved.references l hl)
  simp only [Body.references, List.mem_append, or_assoc] at hl hkept
  rcases hl with htarget | hl
  · obtain ⟨e, he, hl⟩ := List.mem_flatMap.mp htarget
    exact hserves.targets e he l hl
  · exact hkept (.inr hl)

end Patch

/-- Where decoding succeeds, the labels are numbered by increasing offsets, placed once, and all
that the body refers to. Whatever patches of strategies make of the body, no label keeps it from
being encoded; only where it has more events than there are 32-bit numbers can a label be placed
twice. -/
theorem Body.labels_of_decode {data : Bytes} {p : ConstantPool} {method : MethodContext}
    {body : Body} (hdecode : Body.decode data p method = .ok body) :
    (∃ listing offsets, (CodeListing.read p method).parse data = .ok listing ∧
      body.NumberedBy listing offsets) ∧ body.RefersToPlaced ∧
    ∀ {patch : Patch} {changed : Body} {log log' : Log}, patch.pipeline.OfStrategies →
      patch.patchBody method body log = .ok (.ok changed) log' →
      ∀ {q q' : ConstantPool} {e : Error}, p ≤ q → q.WellFormed →
        changed.encode method q = .error e q' →
          (∀ l, e ≠ .undefinedLabel l) ∧ (∀ cause, e ≠ .notSupported cause) ∧
            ∀ l, e = .duplicateLabel l → UInt32.size < changed.events.length := by
  obtain ⟨hnumbered, hrefers⟩ := Body.exists_numberedBy hdecode
  refine ⟨hnumbered, hrefers,
    fun {patch changed log log'} hpipeline hpatch {q q' e} hq hwf hfails => ?_⟩
  have hserved := Patch.served_patchBody hpipeline (Body.served_of_decode hdecode) hpatch
  obtain ⟨events, r, -, rfl⟩ := Patch.exists_run_of_patchBody hpatch
  have hspares : e.SparesLabels (UInt32.size < events.length) :=
    (hserved.failsBy_encode (Body.properIn_of_decode hdecode).attributes).fails hq hwf hfails
  refine ⟨?_, ?_, ?_⟩ <;> rintro cause rfl <;> exact hspares

/-- The names of a class and of a static field of it. -/
private def poppingNames : ConstantPool := .ofSlots #[none, some (.utf8 [84]), some (.classRef 1),
  some (.utf8 [102]), some (.utf8 [76, 84, 59]), some (.nameAndType 3 4), some (.member .field 2 5)]

/-- A body that pops what it has not pushed, and then jumps over the read of the field. -/
private def popping : Body where
  maxStack := 1
  maxLocals := 1
  events :=
    [.instr (.plain Opcode.pop), .instr (.store .reference 0), .instr (.push (.classRef "T")),
      .instr (.plain Opcode.pop), .instr (.jump .goto ⟨0⟩),
      .instr (.field .getStatic "T" "f" "LT;"),
    .instr (.plain Opcode.pop), .label ⟨0⟩, .instr (.leave none)]
  handlers := []
  lines := []
  localVariables := []
  localVariableTypes := []
  frames := []
  attributes := []
  labels := ⟨1⟩

/-- The read of the field is guarded, with two labels more, and the body is not encoded: there is
nothing to pop. -/
theorem Body.labels_of_decode_popping :
    let method : MethodContext := ⟨"A", "m", "()V", true, 52⟩
    let data : Bytes := [0, 1, 0, 1, 0, 0, 0, 13, 87, 75, 18, 2, 87, 167, 0, 7, 178, 0, 6, 87, 177,
      0, 0, 0, 0]
    let g : PropertyGuard := ⟨"T", "f", 0, "a", "b", ["U"]⟩
    let patch : Patch := ⟨"guard", "", .ofName "A", [.mk "m" (.propertyGuard g)]⟩
    let e : Error := .malformed (.flow (.underflow 1 0))
    ∃ changed log, Body.decode data poppingNames method = .ok popping ∧
      patch.pipeline.OfStrategies ∧ patch.patchBody method popping #[] = .ok (.ok changed) log ∧
      changed.labels = ⟨3⟩ ∧
      poppingNames.WellFormed ∧ changed.encode method poppingNames = .error e poppingNames ∧
      (∃ listing offsets, (CodeListing.read poppingNames method).parse data = .ok listing ∧
        popping.NumberedBy listing offsets) ∧ popping.RefersToPlaced ∧
      (∀ l, e ≠ .undefinedLabel l) ∧ (∀ cause, e ≠ .notSupported cause) ∧
        ∀ l, e = .duplicateLabel l → UInt32.size < changed.events.length := by
  intro method data g patch e
  let changed : Body := { popping with
    events := popping.events.take 5 ++ g.code 0 ⟨0⟩ ⟨1⟩ ⟨2⟩ ++ popping.events.drop 5
    labels := ⟨3⟩ }
  have hdecode : Body.decode data poppingNames method = .ok popping := by
    cbv
  have hpatch : patch.patchBody method popping #[] =
      .ok (.ok changed) #[.typeFound "T", .exitFound ⟨0⟩, .guarding 0 ⟨0⟩ "A" "m"] := by
    cbv
  have hwf : poppingNames.WellFormed := ConstantPool.wellFormed_ofSlots rfl (by decide)
  have hfails : changed.encode method poppingNames = .error e poppingNames := by
    cbv
  obtain ⟨hnumbered, hrefers, hspares⟩ := Body.labels_of_decode hdecode
  have hpipeline : patch.pipeline.OfStrategies := by
    intro stage hstage
    obtain rfl := List.mem_singleton.mp hstage
    exact ⟨_, rfl⟩
  exact ⟨changed, _, hdecode, hpipeline, hpatch, rfl, hwf, hfails, hnumbered, hrefers,
    hspares hpipeline hpatch (ConstantPool.le_refl _) hwf hfails⟩

end ClassPatch
