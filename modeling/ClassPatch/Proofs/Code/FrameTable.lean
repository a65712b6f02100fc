import ClassPatch.Proofs.Code.Reached
import ClassPatch.Proofs.Code.Recoding
import ClassPatch.Proofs.Evaluation

/-!
# Frames stand where they are needed

The stack map of written code has one frame for every offset that control comes to by a jump, by a
switch or through a handler, in the order of the offsets, and no other. Control comes to an
instruction behind one that never goes on in no other way, so there is a frame at each of those.
-/

namespace ClassPatch

open PoolM CodeWriter

/-- The frames of a listing stand at the targets of its instructions and handlers. -/
structure CodeListing.FramedBy (listing : CodeListing) (frames : List (Nat × Frame)) : Prop where
  increasing : (frames.map (·.1)).Pairwise (· < ·)
  mem_iff (offset : Nat) : offset ∈ frames.map (·.1) ↔
    (∃ row ∈ listing.code, offset ∈ row.2.targets) ∨ ∃ row ∈ listing.handlers, row.target = offset
  behind (before after : Disassembly) (row row' : Nat × Instruction Nat) :
    listing.code = before ++ row :: row' :: after → row.2.isTerminal = true →
      row'.1 ∈ frames.map (·.1)

namespace Layout

variable {layout : Layout} {p : ConstantPool} {body : Body} {method : MethodContext} {code : Bytes}
  {parts : Parts}

/-! ### Frames at targets -/

/-- What the writer of frames does with one target. -/
private def noteTarget (places : Places) (frames : Std.TreeMap Nat FlowState) (l : Label) :
    Except Error (Std.TreeMap Nat FlowState) := do
  let e ← places.find l
  match e.state with
  | some state => return if frames.contains e.offset then frames else frames.insert e.offset state
  | none => return frames

private theorem noteTarget_spec {before after : Std.TreeMap Nat FlowState} {l : Label}
    (h : noteTarget layout.places before l = .ok after) :
    (∀ offset ∈ before, offset ∈ after) ∧
      ∀ e, layout.places[l]? = some e → e.state.isSome = true → e.offset ∈ after := by
  obtain ⟨e, he, h⟩ := Except.bind_eq_ok.mp h
  have hplace := find_eq_ok.mp he
  cases hstate : e.state with
  | none =>
    rw [hstate] at h
    obtain rfl := Except.pure_eq_ok.mp h
    refine ⟨fun _ hmem => hmem, fun e' he' hsome => ?_⟩
    obtain rfl := Option.some.inj (hplace.symm.trans he')
    simp [hstate] at hsome
  | some state =>
    rw [hstate] at h
    obtain rfl := Except.pure_eq_ok.mp h
    constructor
    · intro offset hmem
      split
      · exact hmem
      · exact Std.TreeMap.mem_insert.mpr (.inr hmem)
    · intro e' he' _
      obtain rfl := Option.some.inj (hplace.symm.trans he')
      split
      · rename_i hcontains
        exact Std.TreeMap.contains_iff_mem.mp hcontains
      · exact Std.TreeMap.mem_insert_self

private theorem mem_of_foldlM_noteTarget {targets : List Label}
    {before after : Std.TreeMap Nat FlowState}
    (h : targets.foldlM (noteTarget layout.places) before = .ok after) :
    (∀ offset ∈ before, offset ∈ after) ∧ ∀ l ∈ targets, ∀ e, layout.places[l]? = some e →
      e.state.isSome = true → e.offset ∈ after := by
  induction targets generalizing before with
  | nil =>
    obtain rfl := Except.pure_eq_ok.mp h
    exact ⟨fun _ hmem => hmem, by simp⟩
  | cons l targets ih =>
    rw [List.foldlM_cons] at h
    obtain ⟨middle, hmiddle, h⟩ := Except.bind_eq_ok.mp h
    obtain ⟨hkept, hnoted⟩ := noteTarget_spec hmiddle
    obtain ⟨hkept', hnoted'⟩ := ih h
    refine ⟨fun offset hmem => hkept' offset (hkept offset hmem), ?_⟩
    intro l' hl' e he hsome
    rcases List.mem_cons.mp hl' with rfl | hl'
    · exact hkept' _ (hnoted e he hsome)
    · exact hnoted' l' hl' e he hsome

/-- Where targets have places, frames are found. -/
theorem exists_frames {places : Places} {targets : List Label}
    (h : ∀ l ∈ targets, ∃ e, places[l]? = some e) :
    ∃ frames, CodeWriter.frames places targets = .ok frames := by
  have hall (reached : Std.TreeMap Nat FlowState) :
      ∃ after, targets.foldlM (noteTarget places) reached = .ok after := by
    induction targets generalizing reached with
    | nil => exact ⟨reached, rfl⟩
    | cons l targets ih =>
      obtain ⟨e, he⟩ := h l List.mem_cons_self
      obtain ⟨middle, hmiddle⟩ : ∃ middle, noteTarget places reached l = .ok middle := by
        cases hstate : e.state with
        | none => exact ⟨_, Except.bind_eq_ok.mpr ⟨e, find_eq_ok.mpr he, by rw [hstate]; rfl⟩⟩
        | some s => exact ⟨_, Except.bind_eq_ok.mpr ⟨e, find_eq_ok.mpr he, by rw [hstate]; rfl⟩⟩
      obtain ⟨after, hafter⟩ := ih (fun l hl => h l (List.mem_cons_of_mem _ hl)) middle
      exact ⟨after, (List.foldlM_cons ..).trans (Except.bind_eq_ok.mpr ⟨middle, hmiddle, hafter⟩)⟩
  obtain ⟨after, hafter⟩ := hall ∅
  exact ⟨_, Except.bind_eq_ok.mpr ⟨after, hafter, rfl⟩⟩

/-- There is one frame for every offset of a target, in their order. -/
theorem frames_spec {targets : List Label} {frames : List (Nat × Frame)}
    (h : CodeWriter.frames layout.places targets = .ok frames)
    (hreached : ∀ l ∈ targets, ∃ e, layout.places[l]? = some e ∧ e.state.isSome = true) :
    (frames.map (·.1)).Pairwise (· < ·) ∧
      ∀ offset, offset ∈ frames.map (·.1) ↔ ∃ l ∈ targets, layout.offset l = offset := by
  have hframes := mem_frames h
  obtain ⟨reached, hnoted, h⟩ := Except.bind_eq_ok.mp h
  obtain rfl := Except.pure_eq_ok.mp h
  have hkeys : (reached.toList.map fun row : Nat × FlowState => (row.1, row.2.toFrame)).map (·.1) =
      reached.keys := by
    rw [List.map_map, ← Std.TreeMap.map_fst_toList_eq_keys]
    rfl
  constructor
  · rw [hkeys]
    exact Std.TreeMap.ordered_keys.imp fun hlt => Nat.compare_eq_lt.mp hlt
  · intro offset
    constructor
    · intro hmem
      obtain ⟨row, hrow, rfl⟩ := List.mem_map.mp hmem
      obtain ⟨l, hl, e, s, hplace, -, rfl⟩ := hframes row hrow
      exact ⟨l, hl, offset_of_places hplace⟩
    · rintro ⟨l, hl, rfl⟩
      obtain ⟨e, hplace, hsome⟩ := hreached l hl
      rw [hkeys, Std.TreeMap.mem_keys, offset_of_places hplace]
      exact (mem_of_foldlM_noteTarget hnoted).2 l hl e hplace hsome

/-! ### Targets of what is written -/

theorem mem_jumpTargets {handlers : List PlacedHandler} {l : Label} :
    l ∈ layout.jumpTargets handlers ↔ (∃ e ∈ layout.placed, l ∈ e.event.targets) ∨
      ∃ h ∈ handlers, h.target.event = .label l := by
  have hlabel (e : Event) : e.label? = some l ↔ e = .label l := by
    cases e <;> simp [Event.label?]
  simp [jumpTargets, hlabel]

end Layout

namespace Body.EmittedAs

variable {body : Body} {method : MethodContext} {p : ConstantPool} {code : Bytes} {layout : Layout}
  {parts : Parts} (hp : p.WellFormed) (h : body.EmittedAs method p code layout parts)
include hp h

/-- Control comes to all that has a frame. -/
theorem reached_of_jumpTarget {l : Label} (hl : l ∈ layout.jumpTargets parts.handlers) :
    ∃ e, layout.places[l]? = some e ∧ e.state.isSome = true := by
  obtain ⟨events, solution, sized, hrounds, hisOf⟩ := Layout.exists_isOf hp h.ofBody .refl
  rcases Layout.mem_jumpTargets.mp hl with ⟨e, he, hl⟩ | ⟨placed, hplaced, hl⟩
  · cases hevent : e.event with
    | label l' => simp [hevent, Event.targets] at hl
    | instr i =>
      rw [hevent] at hl
      obtain ⟨_, hoffset⟩ := h.resolves_target he hevent hl
      obtain ⟨e', he', -⟩ := Except.bind_eq_ok.mp hoffset
      have hplace := Layout.find_eq_ok.mp he'
      exact ⟨e', hplace, hisOf.reached_of_target hp he hevent hl hplace⟩
  · obtain ⟨handler, -, hhandles⟩ := Layout.handles_of_mem hp h.areOf hplaced
    have hplace := hhandles.target
    obtain ⟨-, hevent⟩ := Layout.mem_of_places hplace
    obtain rfl := Event.label.inj (hevent.symm.trans hl)
    exact ⟨_, hplace, hhandles.reached⟩

/-- The offsets of the targets are those that the listing mentions. -/
theorem exists_jumpTarget_iff (offset : Nat) :
    (∃ l ∈ layout.jumpTargets parts.handlers, layout.offset l = offset) ↔
      (∃ row ∈ (layout.listing body parts).code, offset ∈ row.2.targets) ∨
        ∃ row ∈ (layout.listing body parts).handlers, row.target = offset := by
  constructor
  · rintro ⟨l, hl, rfl⟩
    rcases Layout.mem_jumpTargets.mp hl with ⟨e, he, hl⟩ | ⟨placed, hplaced, hl⟩
    · cases hevent : e.event with
      | label l' => simp [hevent, Event.targets] at hl
      | instr i =>
        rw [hevent] at hl
        refine .inl ⟨_, Layout.mem_code.mpr ⟨e, he, i, hevent, rfl⟩, ?_⟩
        rw [Instruction.targets_map]
        exact List.mem_map_of_mem hl
    · obtain ⟨handler, -, hhandles⟩ := Layout.handles_of_mem hp h.areOf hplaced
      obtain ⟨-, hevent⟩ := Layout.mem_of_places hhandles.target
      obtain rfl := Event.label.inj (hevent.symm.trans hl)
      exact .inr ⟨_, List.mem_map_of_mem hplaced, (Layout.offset_of_places hhandles.target).symm⟩
  · rintro (⟨row, hrow, htarget⟩ | ⟨row, hrow, rfl⟩)
    · obtain ⟨e, he, i, hevent, rfl⟩ := Layout.mem_code.mp hrow
      rw [Instruction.targets_map] at htarget
      obtain ⟨l, hl, rfl⟩ := List.mem_map.mp htarget
      exact ⟨l, Layout.mem_jumpTargets.mpr (.inl ⟨e, he, by rw [hevent]; exact hl⟩), rfl⟩
    · obtain ⟨placed, hplaced, rfl⟩ := List.mem_map.mp hrow
      obtain ⟨handler, -, hhandles⟩ := Layout.handles_of_mem hp h.areOf hplaced
      obtain ⟨-, hevent⟩ := Layout.mem_of_places hhandles.target
      exact ⟨handler.target, Layout.mem_jumpTargets.mpr (.inr ⟨placed, hplaced, hevent⟩),
        Layout.offset_of_places hhandles.target⟩

/-- Control comes to an instruction behind one that never goes on by a jump or through a handler. -/
theorem target_of_terminal {before after : Disassembly} {row row' : Nat × Instruction Nat}
    (hcode : layout.code = before ++ row :: row' :: after) (hterminal : row.2.isTerminal = true) :
    (∃ row ∈ layout.code, row'.1 ∈ row.2.targets) ∨
      ∃ placed ∈ parts.handlers, placed.target.offset = row'.1 := by
  have hsorted := h.pairwise_code
  have hlt : ∀ row ∈ layout.code, row.1 < layout.length :=
    Layout.lt_of_mem_code h.made.laid h.filled
  have hcode' : layout.code = (before ++ [row]) ++ row' :: after := by simp [hcode]
  have hprogram := h.made.program_code h.filled fun _ he _ hevent _ hl =>
    h.resolves_target he hevent hl
  have hreaches := h.reaches hp (k := before.length + 1) (by simp [hcode])
  rw [← hprogram] at hreaches
  generalize hm : before.length + 1 = m at hreaches
  cases hreaches with
  | entry => simp at hm
  | @next n i _ hi hnot =>
    obtain rfl : n = before.length := by omega
    rw [hcode, List.map_append, List.getElem?_append_right (by simp)] at hi
    obtain rfl : row.2.map layout.code.numberOf = i := by simpa [hcode] using hi
    rw [Instruction.isTerminal_map] at hnot
    exact absurd hterminal (by simp [hnot])
  | @jump n t i _ hi ht =>
    obtain ⟨from', hfrom, rfl⟩ := List.mem_map.mp (List.mem_of_getElem? hi)
    rw [Instruction.targets_map] at ht
    obtain ⟨offset, hoffset, hnumber⟩ := List.mem_map.mp ht
    obtain ⟨e, he, i, hevent, rfl⟩ := Layout.mem_code.mp hfrom
    obtain ⟨l, hl, rfl⟩ := List.mem_map.mp (Instruction.targets_map layout.offset i ▸ hoffset)
    have hboundary := h.made.boundary (h.resolves_target he hevent hl)
    refine .inl ⟨_, hfrom, ?_⟩
    rw [← Disassembly.eq_of_numberOf hsorted hlt hboundary hcode' (by simp [hnumber, hm])]
    exact hoffset
  | caught guard _ hguard =>
    obtain ⟨placed, hplaced, rfl⟩ := List.mem_map.mp hguard
    obtain ⟨handler, -, hhandles⟩ := Layout.handles_of_mem hp h.areOf hplaced
    have hboundary := h.made.boundary (.of_places hhandles.target)
    rw [Layout.offset_of_places hhandles.target] at hboundary
    exact .inr ⟨placed, hplaced,
      Disassembly.eq_of_numberOf hsorted hlt hboundary hcode'
      (by simpa [Layout.guardOf] using hm.symm)⟩

/-- The frames that have been written stand where they are needed. -/
theorem framedBy {frames : List (Nat × Frame)}
    (hframes : CodeWriter.frames layout.places (layout.jumpTargets parts.handlers) = .ok frames)
    {frames' : List (Nat × Frame)} (hsame : frames'.map (·.1) = frames.map (·.1)) :
    (layout.listing body parts).FramedBy frames' := by
  obtain ⟨hincreasing, hmem⟩ :=
    Layout.frames_spec hframes fun l hl => h.reached_of_jumpTarget hp hl
  have hmem (offset : Nat) := (hmem offset).trans (h.exists_jumpTarget_iff hp offset)
  rw [← hsame] at hincreasing hmem
  refine ⟨hincreasing, hmem, ?_⟩
  intro before after row row' hcode hterminal
  apply (hmem row'.1).mpr
  refine (h.target_of_terminal hp hcode hterminal).imp_right ?_
  rintro ⟨placed, hplaced, htarget⟩
  exact ⟨_, List.mem_map_of_mem hplaced, htarget⟩

end Body.EmittedAs

/-- Whatever encoding accepts is written with frames exactly where they are needed if its class has
stack maps, and with no stack map if it is older: the frames of its listing stand where the
instructions and the handlers of the listing lead. The listing is also what is read from the code,
unless some instruction cannot stand in code; those of a body that has been decoded and possibly
rewritten can. -/
theorem Body.framedBy_of_encode {body : Body} {method : MethodContext} {pool pool' : ConstantPool}
    {code : Bytes} (hpool : pool.WellFormed) (hencoded : body.encode method pool = .ok code pool') :
    ∃ layout parts initial, body.EmittedAs method pool' code layout parts ∧
      Frame.entry method = .ok initial ∧
      (method.majorVersion < 50 → (layout.listing body parts).stackMap = none) ∧
      (50 ≤ method.majorVersion → ∃ frames sites,
        (layout.listing body parts).frames pool' initial = .ok (frames, sites) ∧
          (layout.listing body parts).FramedBy frames) ∧
      (body.ProperIn pool' →
        (CodeListing.read pool' method).parse code = .ok (layout.listing body parts)) ∧
      (∀ data decoded, Body.decode data pool method = .ok decoded → decoded.Rewritten body →
        body.ProperIn pool') := by
  have hsteady := (body.splits_encode method).steady
  have hpool' := hsteady.wellFormed hpool hencoded
  obtain ⟨layout, parts, h⟩ := Body.exists_emittedAs hpool' (hsteady.finds hpool hencoded)
  obtain ⟨initial, hentry⟩ := h.exists_entry hpool'
  obtain ⟨frames, frames', sites, hframes, hread, hstand, -⟩ :=
    Layout.frames_listing hpool' (ConstantPool.le_refl pool') hentry h.areOf
  refine ⟨layout, parts, initial, h, hentry, fun hold => ?_, fun hnew => ?_, fun hproper => ?_,
    fun data decoded hdecoded hrewritten => ?_⟩
  · obtain ⟨frames, hframes, ⟨-, hnone⟩ | ⟨_, _, _, hne, -⟩⟩ :=
      Layout.stackMap_cases hpool' h.areOf.stackMap
    · rw [Layout.listing, hnone]
      rfl
    · rw [Layout.HasFrames, if_pos hold] at hframes
      exact absurd hframes hne
  · rw [Layout.HasFrames, if_neg (UInt16.not_lt.mpr hnew)] at hframes
    exact ⟨frames', sites, hread, h.framedBy hpool' hframes (hstand.map_eq fun _ _ h => h.1)⟩
  · exact (h.encodedAs hpool' hproper).parse_eq hpool' hproper
  · exact (hrewritten.properIn (Body.properIn_of_decode hdecoded)).mono
      (hsteady.le hpool hencoded)

/-- Two returns, the second of which only a conditional jump leads to. The first one returns a
method handle that is given by its index. -/
theorem Body.framedBy_of_encode_branch :
    let method : MethodContext := ⟨"A", "m", "(I)Ljava/lang/Object;", true, 52⟩
    let pool : ConstantPool := .ofSlots #[none, some (.utf8 [65]), some (.classRef 1),
      some (.utf8 [109]), some (.utf8 [40, 41, 86]), some (.nameAndType 3 4),
      some (.member .method 2 5), some (.methodHandle 6 6)]
    let body : Body := ⟨1, 1, [.instr (.load .int 0), .instr (.jump (.branch .ifNe) ⟨0⟩),
      .instr (.push (.methodHandle 7)), .instr (.leave (some .reference)), .label ⟨0⟩,
      .instr (.push .null), .instr (.leave (some .reference))], [], [], [], [], [], [], ⟨1⟩⟩
    let code : Bytes :=
      [0, 1, 0, 1, 0, 0, 0, 9, 26, 154, 0, 6, 18, 7, 176, 1, 176, 0, 0, 0, 1, 0, 8, 0, 0, 0, 3,
        0, 1, 7]
    ∃ pool', body.encode method pool = .ok code pool' ∧
      ∃ layout parts initial, body.EmittedAs method pool' code layout parts ∧
        Frame.entry method = .ok initial ∧
        (method.majorVersion < 50 → (layout.listing body parts).stackMap = none) ∧
        (50 ≤ method.majorVersion → ∃ frames sites,
          (layout.listing body parts).frames pool' initial = .ok (frames, sites) ∧
            (layout.listing body parts).FramedBy frames) ∧
        (body.ProperIn pool' →
          (CodeListing.read pool' method).parse code = .ok (layout.listing body parts)) ∧
        (∀ data decoded, Body.decode data pool method = .ok decoded → decoded.Rewritten body →
          body.ProperIn pool') := by
  intro method pool body code
  have hpool : pool.WellFormed := ConstantPool.wellFormed_ofSlots rfl (by decide)
  have hcode : (body.encode method pool).value? = some code := by cbv
  obtain ⟨pool', hencoded⟩ := EStateM.Result.value?_eq_some.mp hcode
  exact ⟨pool', hencoded, Body.framedBy_of_encode hpool hencoded⟩

end ClassPatch
