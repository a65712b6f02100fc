import ClassPatch.Proofs.ClassFile.Growth
import ClassPatch.Proofs.Code.Reached
import ClassPatch.Proofs.Patch.ConstantResult
import ClassPatch.Proofs.Patch.Footprint
import ClassPatch.Proofs.Patch.ForcedJump
import ClassPatch.Proofs.Patch.PropertyGuard

/-!
# Patching a class again

A strategy that has changed a method finds nothing left to do in it. Between two runs, though, the
class is written and read: code that control does not reach is dropped, labels that nothing refers
to go, and far jumps are bridged. What a strategy looks for must be `Settled` against this. New code
that returns a constant always is; a forced jump must not have a marker come closer to another jump;
and control must come to a guard.
-/

namespace ClassPatch

open PoolM

/-! ### Code that returns a constant -/

namespace ConstantResult

variable {r : ConstantResult} {before behind : List Event} {changed : Body} {method : MethodContext}
  {p : ConstantPool} {code : Bytes} {layout : Layout} {parts : CodeWriter.Parts}

/-- A label stands for the beginning of the new code or for its end. -/
theorem landing_codeBetween (hbefore : instructions before = [])
    (hbehind : instructions behind = []) (l : Label) : landing (r.codeBetween before behind) l = 0 ∨
      landing (r.codeBetween before behind) l = 2 := by
  have hzero {events : List Event} (h : instructions events = []) : landing events l = 0 := by
    induction events with
    | nil => rfl
    | cons e events ih =>
      cases e with
      | label l' =>
        rw [landing]
        split
        · rfl
        · exact ih h
      | instr i => simp at h
  induction before with
  | nil => exact .inr (congrArg (· + 2) (hzero hbehind))
  | cons e before ih =>
    cases e with
    | label l' =>
      rw [codeBetween, List.cons_append, landing]
      split
      · exact .inl rfl
      · exact ih hbefore
    | instr i => simp at hbefore

/-- New code that has been encoded is read back with no label inside. -/
theorem exists_events_eq (hp : p.WellFormed) (hproper : changed.ProperIn p)
    (h : changed.EncodedAs method p code layout parts)
    (hevents : changed.events = r.codeBetween before behind) (hbefore : instructions before = [])
    (hbehind : instructions behind = []) {result : Body}
    (hdecode : Body.decode code p method = .ok result) : ∃ front back, instructions front = [] ∧
      (∀ e ∈ back, e.isLabel = true) ∧ result.events = r.codeBetween front back := by
  obtain ⟨marks, frames, -, hmarks, htable, hdecode'⟩ := h.decode hp hproper
  obtain rfl := Except.ok.inj (hdecode.symm.trans hdecode')
  have hcode := instructions_codeBetween (r := r) hbefore hbehind
  -- Both instructions are reached, so the layout has the events as they are.
  have hplaced : layout.placed.map (·.event) = r.codeBetween before behind := by
    obtain ⟨-, widths, hlowers⟩ := Layout.lowers_of_finds hp h.labels h.ofBody
    rw [hevents] at hlowers
    rw [← hlowers.map_event_eq, List.map_map]
    · rfl
    · intro k hk
      rw [hcode] at hk
      have hk : k = 0 ∨ k = 1 := by
        simp at hk
        omega
      have hpush : (program changed.events)[0]? = some (.push r.value) := by
        rw [program, hevents, hcode]
        rfl
      rw [Nat.zero_add]
      obtain rfl | rfl := hk
      · exact .entry
      · exact Reaches.entry.next hpush rfl
    · rw [hcode]
      simp
  have hprogram := h.made.program_code h.written.size_pos h.written.resolved
  rw [hplaced, program, hcode] at hprogram
  obtain ⟨⟨offset, i⟩, rest, hlayout, hi, hrest⟩ := List.map_eq_cons_iff.mp hprogram
  obtain ⟨⟨offset', i'⟩, rest, rfl, hi', hrest⟩ := List.map_eq_cons_iff.mp hrest
  obtain rfl := List.map_eq_nil_iff.mp hrest
  obtain rfl := Instruction.map_eq_push.mp hi
  obtain rfl := Instruction.map_eq_leave.mp hi'
  have hsplit : layout.code = [(offset, .push r.value)] ++ (offset', .leave r.kind) :: [] := hlayout
  have hnumber : layout.code.numberOf offset' = 1 :=
    Disassembly.numberOf_of_split (Layout.pairwise_code h.made.laid h.written.size_pos) hsplit
  have hunmarked : offset' ∉ marks := by
    intro hmark
    obtain ⟨l, hl, rfl⟩ | ⟨name, hnew⟩ := hmarks.origin _ hmark
    · rw [h.made.numberOf_offset h.written.size_pos hl, hplaced] at hnumber
      obtain hzero | htwo := landing_codeBetween (r := r) hbefore hbehind l <;> omega
    · simp [hlayout] at hnew
  generalize LabelTable.ofOffsets (LabelTable.sorted marks) = table at htable ⊢
  refine ⟨Disassembly.placedAt table offset, Disassembly.placedAt table layout.length,
    Disassembly.instructions_placedAt _, fun e he => ?_, ?_⟩
  · obtain ⟨l, -, rfl⟩ := Option.map_eq_some_iff.mp (Option.mem_toList.mp he)
    rfl
  · have hnone : Disassembly.placedAt table offset' = [] := by
      rw [Disassembly.placedAt, htable.get?_none hunmarked]
      rfl
    simp [Layout.reread, hlayout, Disassembly.rows, hnone, codeBetween, ConstantResult.code,
      Instruction.map]

/-- New code that has been encoded is replaced by itself. -/
theorem ignores_of_encodedAs (hp : p.WellFormed) (hproper : changed.ProperIn p)
    (h : changed.EncodedAs method p code layout parts)
    (hevents : changed.events = r.codeBetween before behind) (hbefore : instructions before = [])
    (hbehind : instructions behind = []) {result : Body}
    (hdecode : Body.decode code p method = .ok result) :
    (Strategy.constantResult r).Ignores method result.events := by
  obtain ⟨front, back, hfront, hback, hresult⟩ :=
    exists_events_eq hp hproper h hevents hbefore hbehind hdecode
  intro s
  rw [hresult]
  have hrun := run_eq (r := r) method hfront (.push r.value) (.instr (.leave r.kind) :: back) s
  rw [show (Event.instr (.leave r.kind) :: back).filter (·.isLabel) = back from
    List.filter_eq_self.mpr hback] at hrun
  exact ⟨_, hrun⟩

end ConstantResult

/-! ### One strategy -/

namespace Strategy

/-- The strategies that can find what they have done: constants do not refer to the pool by an
index, jumps are conditional, and guards forbid some type. -/
def Repeatable : Strategy → Prop
  | constantResult r => ¬r.value.IsIndexed
  | forcedJump j => j.kind.isConditional = true
  | propertyGuard g => g.forbiddenTypes ≠ []

/-- Encoding a body that the strategy has changed does not disturb what the strategy looks for. -/
def Settled (strategy : Strategy) (pool : ConstantPool) (method : MethodContext)
    (before after : Body) : Prop :=
  match strategy with
  | constantResult _ => True
  | forcedJump j => j.Settled pool method after
  | propertyGuard g => g.Settled before after

theorem Repeatable.pushesNoIndex {strategy : Strategy} (h : strategy.Repeatable) :
    strategy.PushesNoIndex := by
  cases strategy with
  | constantResult r => exact h
  | forcedJump j => trivial
  | propertyGuard g => trivial

variable {strategy : Strategy} {data code : Bytes} {pool p : ConstantPool} {method : MethodContext}
  {body changed : Body} {log : Log} {r : PatchState}

/-- A strategy finds nothing to do in a body that it has changed, once this has been written. -/
theorem exists_ignores (h : strategy.Repeatable) (hp : p.WellFormed) (hle : pool ≤ p)
    (hdecoded : Body.decode data pool method = .ok body)
    (hrun : strategy.run method body.events ⟨body.labels, log⟩ = .ok changed.events r)
    (hbody : changed = { body with events := changed.events, labels := r.labels })
    (hchanged : changed.events ≠ body.events) (hsettled : strategy.Settled pool method body changed)
    (hencode : Finds (changed.encode method) p code) :
    ∃ result, Body.decode code p method = .ok result ∧ strategy.Ignores method result.events := by
  have hrewritten := Body.Rewritten.refl.step h.pushesNoIndex hrun
  rw [← hbody] at hrewritten
  have hproper := (hrewritten.properIn (Body.properIn_of_decode hdecoded)).mono hle
  obtain ⟨layout, parts, hencoded⟩ := Body.exists_encodedAs hp hproper hencode
  obtain ⟨marks, frames, -, hmarks, htable, hdecode⟩ := hencoded.decode hp hproper
  obtain ⟨-, place, hrelayed⟩ := hencoded.relayed hp
  rw [← Layout.program_reread hencoded.made hencoded.written hmarks htable] at hrelayed
  refine ⟨_, hdecode, ?_⟩
  cases strategy with
  | constantResult c =>
    obtain ⟨before, i, after, hevents, hbefore, -⟩ := (Body.labelled_of_decode hdecoded).first
    have hcode := ConstantResult.run_eq (r := c) method hbefore i after ⟨body.labels, log⟩
    rw [← hevents] at hcode
    obtain ⟨hevents', -⟩ := EStateM.Result.ok.inj (hrun.symm.trans hcode)
    exact ConstantResult.ignores_of_encodedAs hp hproper hencoded hevents' hbefore
      (ConstantResult.instructions_filter after) hdecode
  | forcedJump j =>
    have hkind : j.kind ≠ .goto := by
      intro hgoto
      rw [Repeatable, hgoto] at h
      cases h
    exact ForcedJump.ignores_of_settled hkind hsettled hrun hle hrelayed
  | propertyGuard g =>
    exact PropertyGuard.ignores_of_settled h hsettled hrun hchanged (hencoded.nodup hp) hrelayed

end Strategy

/-! ### One patch -/

namespace Patch

variable {p : Patch} {c c' : ClassFile} {methodName : String} {strategy : Strategy}

/-- A patch with one stage makes of a body what the strategy makes of its events. -/
theorem rewritten_eq_ok (hpipeline : p.pipeline = [.mk methodName strategy])
    {method : MethodContext} (htargets : p.pipeline.targets method.methodName = true)
    {body changed : Body} : p.rewritten method body = .ok changed ↔ ∃ r,
      strategy.run method body.events ⟨body.labels, #[]⟩ = .ok changed.events r ∧
      changed = { body with events := changed.events, labels := r.labels } := by
  have hrun : p.pipeline.run method body.events = strategy.run method body.events := by
    rw [hpipeline, Pipeline.targets, List.any_cons, List.any_nil, Bool.or_false] at htargets
    have hfilter : [Stage.mk methodName strategy].filter (·.methodName == method.methodName) =
        [.mk methodName strategy] := by
      simpa using htargets
    rw [hpipeline, Pipeline.run, hfilter, List.foldlM_cons]
    exact bind_pure _
  rw [rewritten, hrun, EStateM.run]
  cases hresult : strategy.run method body.events ⟨body.labels, #[]⟩ with
  | ok events r =>
    constructor
    · intro h
      obtain rfl := Except.ok.inj h
      exact ⟨r, rfl, rfl⟩
    · rintro ⟨r', hr', hchanged⟩
      obtain ⟨hevents, rfl⟩ := EStateM.Result.ok.inj hr'
      rw [hchanged, ← hevents]
      rfl
  | error cause r =>
    constructor
    · intro h
      cases h
    · rintro ⟨r', hr', -⟩
      cases hr'

/-- A method that is left as it is stays so in a larger class. -/
theorem Leaves.within {index : Nat} (h : p.Leaves c index) (hwithin : c.Within c')
    (hm : c'.methods[index]? = c.methods[index]?) : p.Leaves c' index := by
  obtain ⟨method, hmethod, hleaves⟩ := h
  refine ⟨method, hwithin.methodContext_of_eq hm method hmethod, ?_⟩
  refine hleaves.imp_right (.imp (hwithin.methodBody hm none) ?_)
  rintro ⟨body, changed, hbody, hsame⟩
  exact ⟨body, changed, hwithin.methodBody hm _ hbody, hsame⟩

/-- A patch that leaves all methods as they are has an empty plan. -/
theorem planFrom_of_leaves {before : List MethodEdit} {indices : List Nat}
    (h : ∀ i ∈ indices, p.Leaves c i) (log : Log) :
    ∃ log', p.planFrom c before indices log = .ok (.edit before.reverse) log' := by
  induction indices generalizing log with
  | nil => exact ⟨log, rfl⟩
  | cons index rest ih =>
    rw [List.forall_mem_cons] at h
    obtain ⟨⟨method, hmethod, hleaves⟩, hrest⟩ := h
    by_cases htargets : p.pipeline.targets method.methodName = true
    · obtain hname | hnone | ⟨body, changed, hbody, hrewritten, hsame⟩ := hleaves
      · cases htargets.symm.trans hname
      · obtain ⟨log', hplan⟩ := ih hrest log
        refine ⟨log', LogM.ofExcept_bind.mpr ⟨method, hmethod, ?_⟩⟩
        rw [if_pos htargets]
        exact LogM.ofExcept_bind.mpr ⟨none, hnone, hplan⟩
      · obtain ⟨log₁, hpatch⟩ := p.patchBody_eq method body log
        obtain ⟨log', hplan⟩ := ih hrest log₁
        refine ⟨log', LogM.ofExcept_bind.mpr ⟨method, hmethod, ?_⟩⟩
        rw [if_pos htargets]
        refine LogM.ofExcept_bind.mpr ⟨some body, hbody, ?_⟩
        refine EStateM.bind_eq_ok.mpr ⟨_, log₁, hpatch, ?_⟩
        rw [hrewritten]
        exact (congrFun (if_pos (beq_iff_eq.mpr hsame)) log₁).trans hplan
    · obtain ⟨log', hplan⟩ := ih hrest log
      refine ⟨log', LogM.ofExcept_bind.mpr ⟨method, hmethod, ?_⟩⟩
      rwa [if_neg htargets]

/-- A class whose methods are all left as they are is unchanged. -/
theorem apply_of_leaves (h : ∀ i < c.methods.size, p.Leaves c i) (log : Log) :
    (p.apply c log).outcome = .ok .unchanged := by
  have hleaves : ∀ i ∈ List.range c.methods.size, p.Leaves c i :=
    fun i hi => h i (List.mem_range.mp hi)
  obtain ⟨log', hplan⟩ : ∃ log', (p.plan c).run log = .ok (.edit []) log' :=
    planFrom_of_leaves hleaves log
  rw [apply, hplan]

/-- A patch leaves every method as it is of a class that it has changed. -/
theorem leaves_of_carryOut {edits : List MethodEdit} {log log' : Log} (hc : c.pool.WellFormed)
    (hpipeline : p.pipeline = [.mk methodName strategy]) (hrepeatable : strategy.Repeatable)
    (hsettled : ∀ edit method body, p.Edits c edit method body →
      strategy.Settled c.pool method body edit.body)
    (hplan : p.plan c log = .ok (.edit edits) log') (hcarried : carryOut edits c = .ok () c')
    {i : Nat} (hi : i < c.methods.size) :
    p.Leaves { c' with pool := .ofSlots c'.pool.slots } i := by
  have hretouched := retouched_of_carryOut hc hplan hcarried
  have hgrown := grownFrom_of_carryOut hc hplan hcarried
  have hwithin : c.Within { c' with pool := .ofSlots c'.pool.slots } :=
    ⟨hretouched.thisClass, hretouched.version, hretouched.pool⟩
  by_cases hleaves : p.Leaves c i
  · exact hleaves.within hwithin (hretouched.left hleaves)
  have hplans := plans_of_plan hplan
  obtain ⟨hnodup, hfits⟩ := fits_of_plan hplan
  obtain ⟨edit, hedit, rfl⟩ : ∃ edit ∈ edits, edit.index = i :=
    List.mem_map.mp (Classical.not_not.mp fun hnot =>
      hleaves (hplans.leaves i (List.mem_range.mpr hi) hnot))
  obtain ⟨method, body, hedits⟩ := hplans.changed edit hedit
  obtain ⟨method', m, position, a, hmethod, hm, hcode, ha, hdecoded⟩ :=
    ClassFile.methodBody_eq_some.mp hedits.read
  obtain rfl := Except.ok.inj (hedits.context.symm.trans hmethod)
  obtain ⟨-, -, hwritten⟩ := carryOut_written hc hnodup hfits hcarried
  obtain ⟨payload, hpayload, hm'⟩ := hwritten edit hedit method m position ⟨hmethod, hm, hcode⟩
  obtain ⟨r, hrun, hbody⟩ := (rewritten_eq_ok hpipeline hedits.targets).mp hedits.rewritten
  obtain ⟨result, hdecode, hignores⟩ := Strategy.exists_ignores hrepeatable hgrown.wellFormed
    hgrown.le hdecoded hrun hbody hedits.changed (hsettled edit method body hedits) hpayload
  obtain ⟨r', hrun'⟩ := hignores ⟨result.labels, #[]⟩
  refine ⟨method, hwithin.methodContext hm hm' rfl rfl rfl method hmethod, .inr (.inr ?_)⟩
  refine ⟨result, { result with labels := r'.labels }, ?_, ?_, rfl⟩
  · refine ClassFile.methodBody_eq_some.mpr
      ⟨method, _, position, { a with payload }, ?_, hm', ?_, ?_, ?_⟩
    · exact hwithin.methodContext hm hm' rfl rfl rfl method hmethod
    · rw [Member.codePosition_setPayload]
      exact Member.codePosition_of_isPrefix hwithin.pool hcode
    · simp [Member.setPayload, ha]
    · have hsame : c'.pool.slots.toList <+: (ConstantPool.ofSlots c'.pool.slots).slots.toList :=
        List.prefix_refl _
      exact Body.decode_of_isPrefix hsame hdecode
  · exact (rewritten_eq_ok hpipeline hedits.targets).mpr ⟨r', hrun', rfl⟩

end Patch

namespace Dispatcher

variable {d : Dispatcher} {className : String} {bytes bytes' : Bytes} {log log' : Log}

/-- A class that has been replaced by a patch with one stage is left as it is by the same patch, if
the strategy can find what it has done and encoding has not disturbed this in any method. -/
theorem unchanged_of_replaced {p : Patch} {methodName : String} {strategy : Strategy}
    (h : d.apply className bytes log = .ok (.replaced bytes') log')
    (hfind : d.find? className = some p) (hpipeline : p.pipeline = [.mk methodName strategy])
    (hrepeatable : strategy.Repeatable)
    (hsettled : ∀ c edit method body, ClassFile.ofBytes bytes = .ok c →
      p.Edits c edit method body → strategy.Settled c.pool method body edit.body)
    (log₁ : Log) : ∃ log₂, d.apply className bytes' log₁ = .ok .unchanged log₂ := by
  obtain ⟨p', c, c', edits, log₂, log₃, hfind', hread, hplan, hcarried, hwrite⟩ :=
    exists_of_replaced h
  obtain rfl := Option.some.inj (hfind.symm.trans hfind')
  have hpool := ClassFile.pool_of_ofBytes hread
  have hretouched := Patch.retouched_of_carryOut hpool.1 hplan hcarried
  have hgrown := Patch.grownFrom_of_carryOut hpool.1 hplan hcarried
  have hnames := hretouched.checkNames hgrown.le (ClassFile.names_of_ofBytes hread)
  have hsound := hgrown.keeps ConstantPool.lasting_sound hpool.2
  have hreread := ClassFile.ofBytes_of_toBytes hsound hnames hwrite
  -- Reading makes the table of the pool anew.
  generalize hc₁ : ({ c' with pool := .ofSlots c'.pool.slots } : ClassFile) = c₁ at hreread
  have hleaves : ∀ i < c₁.methods.size, p.Leaves c₁ i := by
    intro i hi
    rw [← hc₁, hretouched.size] at hi
    rw [← hc₁]
    exact Patch.leaves_of_carryOut hpool.1 hpipeline hrepeatable
      (fun edit method body => hsettled c edit method body hread) hplan hcarried hi
  rw [apply, hfind]
  let log₂ := log₁.push (.transforming className p.name)
  refine ⟨(p.apply c₁ log₂).log.push (.unchanged className p.name), ?_⟩
  refine EStateM.bind_eq_ok.mpr ⟨(), log₂, rfl, LogM.ofExcept_bind.mpr ⟨c₁, hreread, ?_⟩⟩
  rw [EStateM.get_bind]
  refine EStateM.bind_eq_ok.mpr ⟨(), _, rfl, ?_⟩
  exact LogM.ofExcept_bind.mpr ⟨.unchanged, Patch.apply_of_leaves hleaves _, rfl⟩

/-- A class with one method of the given code, in whose pool `x` is a string. -/
private def withMarkedCode (maxStack : UInt8) (code : Bytes) : Bytes :=
  [202, 254, 186, 190, 0, 0, 0, 49, 0, 8, 1, 0, 1, 120, 8, 0, 1, 1, 0, 4, 67, 111, 100, 101, 1, 0,
    1, 109, 1, 0, 5, 40, 41, 76, 65, 59, 1, 0, 1, 65, 7, 0, 6, 0, 33, 0, 7, 0, 0, 0, 0, 0, 0, 0, 1,
    0, 8, 0, 4, 0, 5, 0, 1, 0, 3, 0, 0, 0, UInt8.ofNat (12 + code.length), 0, maxStack, 0, 0,
    0, 0, 0,
    UInt8.ofNat code.length] ++ code ++ [0, 0, 0, 0, 0, 0]

private def skipNull : Patch :=
  ⟨"P", "", .ofName "A", [.mk "m" (.forcedJump ⟨"x", .branch .ifNull, .lenient⟩)]⟩

/-- What the patch makes of `ldc x; ifnull` over a return of null. -/
private def skipped : Body := ⟨1, 0, [.instr (.push (.string "x")), .instr (.plain Opcode.pop),
  .instr (.jump .goto ⟨0⟩), .instr (.push .null), .instr (.leave (some .reference)), .label ⟨0⟩,
  .instr (.push .null), .instr (.leave (some .reference))], [], [], [], [], [], [], ⟨1⟩⟩

private theorem settled_skipped (pool : ConstantPool) (method : MethodContext) :
    ForcedJump.Settled ⟨"x", .branch .ifNull, .lenient⟩ pool method skipped where
  strict := nofun
  passed := by
    intro n hlive hpending hlt
    obtain rfl | rfl | hn : n = 0 ∨ n = 1 ∨ n ∈ [2, 3, 4, 5] := by
      have hlt : n + 1 < 7 := hlt
      simp only [List.mem_cons, List.not_mem_nil, or_false]
      omega
    · exact hlive.next rfl rfl
    · exact hlive.next rfl rfl
    · have hnot : ∀ n ∈ [2, 3, 4, 5], ForcedJump.pendingAt ⟨"x", .branch .ifNull, .lenient⟩
          (shapes skipped.events) (n + 1) = false := by
        decide
      cases (hnot n hn).symm.trans hpending
  near := by
    intro n c hn
    have hmem := List.mem_of_getElem? hn
    simp [shapes, skipped, instructions, Event.instr?, Instruction.shape, Instruction.map] at hmem

set_option maxRecDepth 2000 in
private theorem apply_skipNull : (Dispatcher.mk [skipNull]).apply "A"
    (withMarkedCode 1 [18, 2, 198, 0, 5, 1, 176, 1, 176]) #[] =
      .ok (.replaced (withMarkedCode 1 [18, 2, 87, 167, 0, 3, 1, 176])) #[.transforming "A" "P",
        .markerFound "x", .forcing (.branch .ifNull) ⟨0⟩ "A" "m", .patched "A" ["m"] "P"] := by
  cbv

private theorem read_skipNull : (do
    let c ← ClassFile.ofBytes (withMarkedCode 1 [18, 2, 198, 0, 5, 1, 176, 1, 176])
    return (c.methods.size, ← c.methodContext 0, ← c.methodBody 0)) =
      .ok (1, ⟨"A", "m", "()LA;", true, 49⟩, some { skipped with events :=
        [.instr (.push (.string "x")), .instr (.jump (.branch .ifNull) ⟨0⟩), .instr (.push .null),
          .instr (.leave (some .reference)), .label ⟨0⟩, .instr (.push .null),
          .instr (.leave (some .reference))] }) := by
  cbv

/-- The jump of `ldc x; ifnull` over a return is taken always, and the return is dropped. -/
theorem unchanged_of_replaced_forced : ∃ log,
    (Dispatcher.mk [skipNull]).apply "A" (withMarkedCode 1 [18, 2, 198, 0, 5, 1, 176, 1, 176]) #[] =
      .ok (.replaced (withMarkedCode 1 [18, 2, 87, 167, 0, 3, 1, 176])) log ∧
    ∀ log₁, ∃ log₂, (Dispatcher.mk [skipNull]).apply "A"
      (withMarkedCode 1 [18, 2, 87, 167, 0, 3, 1, 176]) log₁ = .ok .unchanged log₂ := by
  have hfind : (Dispatcher.mk [skipNull]).find? "A" = some skipNull := by cbv
  have hstrategy : Strategy.Repeatable (.forcedJump ⟨"x", .branch .ifNull, .lenient⟩) := rfl
  refine ⟨_, apply_skipNull, unchanged_of_replaced apply_skipNull hfind rfl hstrategy ?_⟩
  intro c edit method body hc hedits
  have hread := read_skipNull
  rw [hc] at hread
  obtain ⟨_, ⟨⟩, hread⟩ := Except.bind_eq_ok.mp hread
  obtain ⟨context, hcontext, hread⟩ := Except.bind_eq_ok.mp hread
  obtain ⟨found, hfound, hread⟩ := Except.bind_eq_ok.mp hread
  obtain ⟨hsize, hrest⟩ := Prod.mk.inj (Except.ok.inj hread)
  obtain ⟨rfl, rfl⟩ := Prod.mk.inj hrest
  -- The edit is for the only method.
  obtain ⟨m, hm, -⟩ := ClassFile.methodContext_eq_ok.mp hedits.context
  obtain ⟨index, name, changed⟩ := edit
  obtain rfl : index = 0 := by
    have := (Array.getElem?_eq_some_iff.mp hm).1
    dsimp only at this
    omega
  obtain rfl := Except.ok.inj (hedits.context.symm.trans hcontext)
  obtain rfl := Option.some.inj (Except.ok.inj (hedits.read.symm.trans hfound))
  have hrewritten : Except.ok changed = .ok skipped := hedits.rewritten.symm.trans rfl
  obtain rfl := Except.ok.inj hrewritten
  exact settled_skipped _ _

set_option maxRecDepth 4000 in
private theorem apply_dropped : (Dispatcher.mk [skipNull]).apply "A" (withMarkedCode 2
    [18, 2, 198, 0, 3, 1, 1, 199, 0, 7, 18, 2, 176, 1, 198, 0, 3, 1, 176]) #[] =
      .ok (.replaced (withMarkedCode 2
        [18, 2, 87, 167, 0, 3, 1, 1, 199, 0, 6, 18, 2, 176, 198, 0, 3, 1, 176]))
        #[.transforming "A" "P", .markerFound "x", .forcing (.branch .ifNull) ⟨0⟩ "A" "m",
          .markerFound "x", .patched "A" ["m"] "P"] := by
  cbv

set_option maxRecDepth 4000 in
private theorem apply_dropped_again : (Dispatcher.mk [skipNull]).apply "A" (withMarkedCode 2
    [18, 2, 87, 167, 0, 3, 1, 1, 199, 0, 6, 18, 2, 176, 198, 0, 3, 1, 176]) #[] =
      .ok (.replaced (withMarkedCode 2
        [18, 2, 87, 167, 0, 3, 1, 1, 199, 0, 6, 18, 2, 176, 87, 167, 0, 3, 1, 176]))
        #[.transforming "A" "P", .markerFound "x", .markerFound "x",
          .forcing (.branch .ifNull) ⟨2⟩ "A" "m", .patched "A" ["m"] "P"] := by
  cbv

/-- Where a push that control does not reach has been dropped between a marker and a jump, a second
run takes the jump always. -/
theorem apply_not_idempotent :
    (∃ methodName, ∃ strategy : Strategy, skipNull.pipeline = [.mk methodName strategy] ∧
      strategy.Repeatable) ∧ ∃ bytes' bytes'' log log',
      (Dispatcher.mk [skipNull]).apply "A" (withMarkedCode 2
        [18, 2, 198, 0, 3, 1, 1, 199, 0, 7, 18, 2, 176, 1, 198, 0, 3, 1, 176]) #[] =
          .ok (.replaced bytes') log ∧
      (Dispatcher.mk [skipNull]).apply "A" bytes' #[] = .ok (.replaced bytes'') log' :=
  ⟨⟨_, _, rfl, rfl⟩, _, _, _, _, apply_dropped, apply_dropped_again⟩

end Dispatcher
end ClassPatch
