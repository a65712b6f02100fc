import ClassPatch.Proofs.Code.Emission
import ClassPatch.Proofs.Code.RereadBody
import ClassPatch.Proofs.Evaluation
import ClassPatch.Proofs.Patch.Rewriting

/-!
# Encoding keeps the program

What encoding writes is decoded as a body whose program is the live part of the one that was
encoded: its instructions in their order, each jumping to where its targets have come. Only far
conditional jumps may have been bridged.
-/

namespace ClassPatch

open PoolM CodeWriter

variable {body : Body} {method : MethodContext} {p : ConstantPool} {code : Bytes} {layout : Layout}
  {parts : Parts}

/-- How a body has been encoded in a pool that holds all that the code refers to. -/
structure Body.EncodedAs (body : Body) (method : MethodContext) (p : ConstantPool) (code : Bytes)
    (layout : Layout) (parts : Parts) : Prop where
  labels : body.checkLabels = .ok ()
  ofBody : Finds (Layout.ofBody body method) p layout
  length_le : layout.length ≤ 65535
  areOf : parts.AreOf body method layout p
  bytes : code = parts.bytes layout
  made : layout.MadeIn p
  written : layout.WrittenAs p parts.code
  entry : ∃ initial, Frame.entry method = .ok initial

/-- A body of instructions that can stand in code is encoded as it is emitted. -/
theorem Body.EmittedAs.encodedAs (hp : p.WellFormed) (hproper : body.ProperIn p)
    (h : body.EmittedAs method p code layout parts) :
    body.EncodedAs method p code layout parts := by
  obtain ⟨-, widths, hlowers⟩ := Layout.lowers_of_finds hp h.labels h.ofBody
  have hplaced := hlowers.properIn hproper.instructions
  rw [List.map_map] at hplaced
  exact ⟨h.labels, h.ofBody, h.length_le, h.areOf, h.bytes, h.made,
    Layout.writtenAs hp hp (ConstantPool.le_refl p) h.made hplaced h.areOf.code,
    h.exists_entry hp⟩

theorem Body.exists_encodedAs (hp : p.WellFormed) (hproper : body.ProperIn p)
    (h : Finds (body.encode method) p code) :
    ∃ layout parts, body.EncodedAs method p code layout parts := by
  obtain ⟨layout, parts, h⟩ := Body.exists_emittedAs hp h
  exact ⟨layout, parts, h.encodedAs hp hproper⟩

namespace Body.EncodedAs

theorem emittedAs (hp : p.WellFormed) (h : body.EncodedAs method p code layout parts) :
    body.EmittedAs method p code layout parts :=
  emittedAs_of_areOf hp h.labels h.ofBody h.length_le h.areOf h.bytes h.made

/-- The code is read as the listing of the layout. -/
theorem parse_eq (hp : p.WellFormed) (hproper : body.ProperIn p)
    (h : body.EncodedAs method p code layout parts) :
    (CodeListing.read p method).parse code = .ok (layout.listing body parts) := by
  rw [h.bytes]
  exact Layout.read_bytes hp (ConstantPool.le_refl p) h.made h.written h.length_le
    hproper.attributes h.areOf

/-- The code is decoded as the body of the layout. -/
theorem decode (hp : p.WellFormed) (hproper : body.ProperIn p)
    (h : body.EncodedAs method p code layout parts) :
    ∃ marks frames, layout.HasFrames parts.handlers method frames ∧
      layout.Marks body parts frames marks ∧
      (LabelTable.ofOffsets (LabelTable.sorted marks)).Has marks ∧
      Body.decode code p method =
        .ok (layout.reread body parts p (.ofOffsets (LabelTable.sorted marks)) frames) := by
  obtain ⟨initial, hentry⟩ := h.entry
  obtain ⟨marks, frames, hframes, hmarks, htable, hbody⟩ :=
    Layout.body_listing hp (ConstantPool.le_refl p) h.made h.written h.length_le hentry h.areOf
  exact ⟨marks, frames, hframes, hmarks, htable,
    Except.bind_eq_ok.mpr ⟨layout.listing body parts, h.parse_eq hp hproper, hbody⟩⟩

/-- Control does not leave the program of the body, and the layout has its live part. -/
theorem relayed (hp : p.WellFormed) (h : body.EncodedAs method p code layout parts) :
    (∀ n, body.Live n → n < (program body.events).length) ∧
      ∃ place, Relayed body.Live (body.Overshoots method p) place 0 0 (program body.events)
        (program (layout.placed.map (·.event))) := by
  obtain ⟨hlt, widths, hrelayed, -⟩ := h.made.exists_relayed hp h.labels h.ofBody
  exact ⟨fun _ => hlt, placeBy widths, hrelayed⟩

/-- A body that has been encoded places no label twice. -/
theorem nodup (hp : p.WellFormed) (h : body.EncodedAs method p code layout parts) :
    (ClassPatch.placedLabels body.events).Nodup := by
  obtain ⟨-, widths, hlowers⟩ := Layout.lowers_of_finds hp h.labels h.ofBody
  have hnodup := h.made.nodup
  rw [← Layout.map_event_placed] at hnodup
  exact hnodup.sublist hlowers.placedLabels_sublist

end Body.EncodedAs

/-- A body that has been decoded and possibly rewritten keeps its program when it is encoded. What
is written is decoded as a body with exactly the live instructions in their order, which jump to
where their targets have come; only conditional jumps that are far may have been bridged. -/
theorem Body.decode_of_encode {data : Bytes} {decoded rewritten : Body} {pool pool' : ConstantPool}
    (hpool : pool.WellFormed) (hdecoded : Body.decode data pool method = .ok decoded)
    (hrewritten : decoded.Rewritten rewritten)
    (hencoded : rewritten.encode method pool = .ok code pool') :
    ∃ body, Body.decode code pool' method = .ok body ∧
      (∀ n, rewritten.Live n → n < (program rewritten.events).length) ∧
      ∃ place, Relayed rewritten.Live (rewritten.Overshoots method pool') place 0 0
        (program rewritten.events) (program body.events) := by
  have hsteady := (rewritten.splits_encode method).steady
  have hproper := (hrewritten.properIn (Body.properIn_of_decode hdecoded)).mono
    (hsteady.le hpool hencoded)
  have hpool' := hsteady.wellFormed hpool hencoded
  obtain ⟨layout, parts, h⟩ :=
    Body.exists_encodedAs hpool' hproper (hsteady.finds hpool hencoded)
  obtain ⟨marks, frames, -, hmarks, htable, hdecode⟩ := h.decode hpool' hproper
  obtain ⟨hlt, place, hrelayed⟩ := h.relayed hpool'
  refine ⟨_, hdecode, hlt, place, ?_⟩
  rw [Layout.program_reread h.made h.written hmarks htable]
  exact hrelayed

/-- The code `iconst_2 ireturn ireturn` is made to return seven instead of two. -/
theorem Body.decode_of_encode_replaced :
    let method : MethodContext := ⟨"A", "m", "()I", true, 52⟩
    let seven : Body :=
      ⟨1, 0, [.instr (.push (.int 7)), .instr (.leave (some .int))], [], [], [], [], [], [], ⟨0⟩⟩
    ∃ body, Body.decode [0, 1, 0, 0, 0, 0, 0, 3, 16, 7, 172, 0, 0, 0, 0] .empty method = .ok body ∧
      (∀ n, seven.Live n → n < (program seven.events).length) ∧
      ∃ place, Relayed seven.Live (seven.Overshoots method .empty) place 0 0
        (program seven.events) (program body.events) := by
  intro method seven
  let two : Body := { seven with events := [.instr (.push (.int 2)), .instr (.leave (some .int)),
    .instr (.leave (some .int))] }
  have hdecoded : Body.decode [0, 1, 0, 0, 0, 0, 0, 3, 5, 172, 172, 0, 0, 0, 0] .empty method =
      .ok two := by
    cbv
  have hpushes : (Strategy.constantResult ⟨.int 7, some .int⟩).PushesNoIndex := fun h => h
  have hrun : (Strategy.constantResult ⟨.int 7, some .int⟩).run method two.events ⟨⟨0⟩, #[]⟩ =
      .ok seven.events ⟨⟨0⟩, #[.replacing "A" "m"]⟩ := by
    cbv
  have hrewritten : two.Rewritten seven := by
    have h := (Body.Rewritten.refl : two.Rewritten two).step hpushes hrun
    exact h
  have hencoded : seven.encode method .empty =
      .ok [0, 1, 0, 0, 0, 0, 0, 3, 16, 7, 172, 0, 0, 0, 0] .empty := by
    cbv
  exact Body.decode_of_encode ConstantPool.wellFormed_empty hdecoded hrewritten hencoded

end ClassPatch
