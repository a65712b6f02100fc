import ClassPatch.Dispatch
import ClassPatch.Proofs.ClassFile.Codec
import ClassPatch.Proofs.ClassFile.Edit
import ClassPatch.Proofs.Evaluation
import ClassPatch.Proofs.Patch.Planning

/-!
# What a patch touches

A class that a patch has replaced can be read again. It has all the constants that it had before, at
the same indices, and the same fields and attributes of its own. Its methods keep their places,
flags and signatures. One that the patch leaves as it is stays the same altogether, and any other
differs at most in the payload of its code.
-/

namespace ClassPatch

open PoolM

/-! ### Writing several bodies -/

namespace Patch

variable {c c' : ClassFile} {edits : List MethodEdit}

theorem carryOut_cons (edit : MethodEdit) (edits : List MethodEdit) : carryOut (edit :: edits) =
    (do ClassFile.setBody edit.index edit.body; carryOut edits) :=
  List.forM_cons ..

/-- Writing bodies changes the pool and the methods that they are for. -/
theorem carryOut_ok (hc : c.pool.WellFormed) (h : carryOut edits c = .ok () c') :
    c.pool ≤ c'.pool ∧ c'.pool.WellFormed ∧
      c' = { c with pool := c'.pool, methods := c'.methods } ∧
      ∀ i ∉ edits.map (·.index), c'.methods[i]? = c.methods[i]? := by
  induction edits generalizing c with
  | nil =>
    obtain ⟨-, rfl⟩ := EStateM.pure_eq_ok.mp h
    exact ⟨ConstantPool.le_refl _, hc, rfl, fun _ _ => rfl⟩
  | cons edit edits ih =>
    rw [carryOut_cons] at h
    obtain ⟨⟨⟩, c₁, hedit, h⟩ := EStateM.bind_eq_ok.mp h
    obtain ⟨pool, hgrown, ⟨e, herror⟩ | ⟨f, -, hok⟩⟩ :=
      ClassFile.setBody_cases edit.index edit.body hc
    · cases hedit.symm.trans herror
    · obtain ⟨-, rfl⟩ := EStateM.Result.ok.inj (hedit.symm.trans hok)
      obtain ⟨hle', hpool', heq, hmethods⟩ := ih hgrown.wellFormed h
      refine ⟨ConstantPool.le_trans hgrown.le hle', hpool', heq, fun i hi => ?_⟩
      rw [List.map_cons, List.mem_cons, not_or] at hi
      rw [hmethods i hi.2]
      simp [ClassFile.modifyMethod, Array.getElem?_modify, Ne.symm hi.1]

end Patch

/-- The method that an edit is for can be named and has code. -/
structure MethodEdit.Fits (edit : MethodEdit) (c : ClassFile) (context : MethodContext) (m : Member)
    (position : Nat) : Prop where
  context : c.methodContext edit.index = .ok context
  method : c.methods[edit.index]? = some m
  code : m.codePosition c.pool = .ok (some position)

namespace MethodEdit.Fits

variable {edit : MethodEdit} {c c' : ClassFile} {context : MethodContext} {m : Member}
  {position : Nat}

/-- An edit still fits when the pool has grown and other methods have changed. -/
theorem mono (h : edit.Fits c context m position) (hpool : c.pool ≤ c'.pool)
    (hc' : c' = { c with pool := c'.pool, methods := c'.methods })
    (hm : c'.methods[edit.index]? = c.methods[edit.index]?) :
    edit.Fits c' context m position where
  context := by
    obtain ⟨m, hmethod, hclass, hname, hdescriptor, hstatic, hmajor⟩ :=
      ClassFile.methodContext_eq_ok.mp h.context
    refine ClassFile.methodContext_eq_ok.mpr ⟨m, hm.trans hmethod, ?_,
      ConstantPool.text_mono hpool hname, ConstantPool.text_mono hpool hdescriptor, hstatic, ?_⟩
    · rw [ClassFile.name, hc']
      exact ConstantPool.className_mono hpool hclass
    · rwa [hc']
  method := hm.trans h.method
  code := Member.codePosition_mono hpool h.code

/-- An edit fits in one way. -/
theorem unique (h : edit.Fits c context m position) {context' : MethodContext} {m' : Member}
    {position' : Nat} (h' : edit.Fits c context' m' position') :
    context = context' ∧ m = m' ∧ position = position' := by
  obtain rfl := Option.some.inj (h.method.symm.trans h'.method)
  exact ⟨Except.ok.inj (h.context.symm.trans h'.context), rfl,
    Option.some.inj (Except.ok.inj (h.code.symm.trans h'.code))⟩

end MethodEdit.Fits

namespace Patch

variable {c c' : ClassFile} {edits : List MethodEdit}

/-- Bodies that are written over the code of different methods all stand in their places. -/
theorem carryOut_written (hc : c.pool.WellFormed) (hnodup : (edits.map (·.index)).Nodup)
    (hfits : ∀ edit ∈ edits, ∃ context m position, edit.Fits c context m position)
    (h : carryOut edits c = .ok () c') :
    GrownFrom c.pool c'.pool ∧ c'.methods.size = c.methods.size ∧
      ∀ edit ∈ edits, ∀ context m position, edit.Fits c context m position →
        ∃ payload, Finds (edit.body.encode context) c'.pool payload ∧
          c'.methods[edit.index]? = some (m.setPayload position payload) := by
  induction edits generalizing c with
  | nil =>
    obtain ⟨-, rfl⟩ := EStateM.pure_eq_ok.mp h
    exact ⟨.refl hc, rfl, nofun⟩
  | cons edit edits ih =>
    rw [List.map_cons, List.nodup_cons] at hnodup
    rw [carryOut_cons] at h
    obtain ⟨⟨⟩, c₁, hedit, hrest⟩ := EStateM.bind_eq_ok.mp h
    obtain ⟨context, m, position, hfit⟩ := hfits edit (List.mem_cons_self ..)
    obtain ⟨hgrown, payload, hpayload, hc₁⟩ :=
      ClassFile.setBody_of_code hc hfit.context hfit.method hfit.code hedit
    have hothers {i : Nat} (hi : edit.index ≠ i) : c₁.methods[i]? = c.methods[i]? := by
      rw [hc₁]
      simp [ClassFile.modifyMethod, Array.getElem?_modify, hi]
    have hmono {edit' : MethodEdit} (hedit' : edit' ∈ edits) {context' : MethodContext}
        {m' : Member} {position' : Nat} (hfit' : edit'.Fits c context' m' position') :
        edit'.Fits c₁ context' m' position' := by
      have hne : edit.index ≠ edit'.index := fun heq =>
        hnodup.1 (heq ▸ List.mem_map_of_mem hedit')
      exact hfit'.mono hgrown.le (by rw [hc₁]; rfl) (hothers hne)
    have hfits' : ∀ edit' ∈ edits, ∃ context m position, edit'.Fits c₁ context m position := by
      intro edit' hedit'
      obtain ⟨context', m', position', hfit'⟩ := hfits edit' (List.mem_cons_of_mem _ hedit')
      exact ⟨context', m', position', hmono hedit' hfit'⟩
    obtain ⟨hgrown', hsize, hwritten⟩ := ih hgrown.wellFormed hnodup.2 hfits' hrest
    refine ⟨hgrown.trans hgrown', ?_, ?_⟩
    · rw [hsize, hc₁]
      simp [ClassFile.modifyMethod]
    · intro edit' hedit' context' m' position' hfit'
      obtain rfl | hedit' := List.mem_cons.mp hedit'
      · -- The edits behind leave the method alone.
        obtain ⟨hle, -, -, hkept⟩ := carryOut_ok hgrown.wellFormed hrest
        obtain ⟨rfl, rfl, rfl⟩ := hfit.unique hfit'
        refine ⟨payload, hpayload.mono (edit'.body.splits_encode _).steady hgrown.wellFormed
          hle, ?_⟩
        rw [hkept _ hnodup.1, hc₁]
        simp [ClassFile.modifyMethod, Array.getElem?_modify, hfit.method]
      · exact hwritten edit' hedit' _ _ _ (hmono hedit' hfit')

/-- An edit that has been planned fits. -/
theorem Edits.exists_fits {p : Patch} {edit : MethodEdit} {method : MethodContext} {body : Body}
    (h : p.Edits c edit method body) : ∃ m position, edit.Fits c method m position := by
  obtain ⟨context, m, position, a, hcontext, hm, hcode, -, -⟩ :=
    ClassFile.methodBody_eq_some.mp h.read
  obtain rfl := Except.ok.inj (h.context.symm.trans hcontext)
  exact ⟨m, position, hcontext, hm, hcode⟩

/-- A method that is changed is not left as it is. -/
theorem Edits.not_leaves {p : Patch} {edit : MethodEdit} {method : MethodContext} {body : Body}
    (h : p.Edits c edit method body) : ¬p.Leaves c edit.index := by
  rintro ⟨method', hmethod, hleaves⟩
  obtain rfl := Except.ok.inj (h.context.symm.trans hmethod)
  obtain hname | hcode | ⟨body', changed, hbody, hrewritten, hevents⟩ := hleaves
  · cases h.targets.symm.trans hname
  · cases h.read.symm.trans hcode
  · obtain rfl := Option.some.inj (Except.ok.inj (h.read.symm.trans hbody))
    obtain rfl := Except.ok.inj (h.rewritten.symm.trans hrewritten)
    exact h.changed hevents

/-- A patch that is done has carried out its plan. -/
theorem exists_of_patched {p : Patch} {log : Log} {methods : List String}
    (h : (p.apply c log).outcome = .ok (.patched methods)) :
    ∃ edits log', p.plan c log = .ok (.edit edits) log' ∧
      carryOut edits c = .ok () (p.apply c log).classFile := by
  unfold apply at h ⊢
  simp only [EStateM.run] at h ⊢
  cases hplan : p.plan c log with
  | error e log' =>
    rw [hplan] at h
    cases h
  | ok plan log' =>
    rw [hplan] at h
    cases plan with
    | reject methodName cause => cases h
    | edit edits =>
      cases edits with
      | nil => cases h
      | cons edit edits =>
        dsimp only at h ⊢
        cases hcarried : carryOut (edit :: edits) c with
        | error e c₁ =>
          rw [hcarried] at h
          cases h
        | ok u c₁ => exact ⟨edit :: edits, log', rfl, hcarried⟩

end Patch

/-! ### What stays -/

/-- At most the payload of the first attribute that holds code is another one. -/
structure Member.Recoded (pool : ConstantPool) (m m' : Member) : Prop where
  flags : m'.flags = m.flags
  name : m'.name = m.name
  descriptor : m'.descriptor = m.descriptor
  attributes : ∃ before code after payload, m.attributes = before ++ code :: after ∧
    m'.attributes = before ++ { code with payload } :: after ∧
    pool.text code.name = .ok Member.codeName ∧
    ∀ a ∈ before, ∃ name, pool.text a.name = .ok name ∧ name ≠ Member.codeName

/-- A class after a patch, compared with the class before. -/
structure ClassFile.Retouched (p : Patch) (c c' : ClassFile) : Prop where
  version : c'.version = c.version
  flags : c'.flags = c.flags
  thisClass : c'.thisClass = c.thisClass
  superClass : c'.superClass = c.superClass
  interfaces : c'.interfaces = c.interfaces
  fields : c'.fields = c.fields
  attributes : c'.attributes = c.attributes
  /-- All constants stay where they are. -/
  pool : c.pool.slots.toList <+: c'.pool.slots.toList
  size : c'.methods.size = c.methods.size
  /-- A method that the patch leaves as it is stays the same altogether. -/
  left : ∀ {i : Nat}, p.Leaves c i → c'.methods[i]? = c.methods[i]?
  /-- Any other stays the same or gets other code. -/
  recoded : ∀ {i : Nat} {m : Member}, c.methods[i]? = some m →
    ∃ m', c'.methods[i]? = some m' ∧ (m' = m ∨ m.Recoded c.pool m')

theorem Member.recoded_setPayload {pool : ConstantPool} {m : Member} {position : Nat}
    (h : m.codePosition pool = .ok (some position)) (payload : Bytes) :
    m.Recoded pool (m.setPayload position payload) where
  flags := rfl
  name := rfl
  descriptor := rfl
  attributes := by
    obtain ⟨before, code, after, hattributes, hposition, hcode, hbefore⟩ := exists_of_findCode h
    rw [Nat.zero_add] at hposition
    refine ⟨before, code, after, payload, hattributes, ?_, hcode, hbefore⟩
    rw [setPayload, hattributes, hposition, List.modify_eq_take_drop, List.take_left,
      List.drop_left]
    rfl

namespace Patch

variable {p : Patch} {c c' : ClassFile} {edits : List MethodEdit} {log log' : Log}

/-- A plan is for different methods that have code. -/
theorem fits_of_plan (h : p.plan c log = .ok (.edit edits) log') :
    (edits.map (·.index)).Nodup ∧
      ∀ edit ∈ edits, ∃ context m position, edit.Fits c context m position := by
  have hplans := plans_of_plan h
  refine ⟨hplans.sublist.nodup List.nodup_range, fun edit hedit => ?_⟩
  obtain ⟨method, body, hedits⟩ := hplans.changed edit hedit
  exact ⟨method, hedits.exists_fits⟩

theorem grownFrom_of_carryOut (hc : c.pool.WellFormed)
    (hplan : p.plan c log = .ok (.edit edits) log') (h : carryOut edits c = .ok () c') :
    GrownFrom c.pool c'.pool :=
  (carryOut_written hc (fits_of_plan hplan).1 (fits_of_plan hplan).2 h).1

/-- A plan that is carried out touches nothing but the code of the methods that it is for. -/
theorem retouched_of_carryOut (hc : c.pool.WellFormed)
    (hplan : p.plan c log = .ok (.edit edits) log') (h : carryOut edits c = .ok () c') :
    ClassFile.Retouched p c c' := by
  have hplans := plans_of_plan hplan
  obtain ⟨hnodup, hfits⟩ := fits_of_plan hplan
  obtain ⟨hle, -, hc', hothers⟩ := carryOut_ok hc h
  obtain ⟨-, hsize, hwritten⟩ := carryOut_written hc hnodup hfits h
  rw [hc']
  refine ⟨rfl, rfl, rfl, rfl, rfl, rfl, rfl, hle.slots, hsize, fun {i} hleaves => ?_,
    fun {i m} hm => ?_⟩
  · refine hothers i fun hi => ?_
    obtain ⟨edit, hedit, rfl⟩ := List.mem_map.mp hi
    obtain ⟨method, body, hedits⟩ := hplans.changed edit hedit
    exact hedits.not_leaves hleaves
  · by_cases hi : i ∈ edits.map (·.index)
    · obtain ⟨edit, hedit, rfl⟩ := List.mem_map.mp hi
      obtain ⟨context, m', position, hfit⟩ := hfits edit hedit
      obtain rfl := Option.some.inj (hfit.method.symm.trans hm)
      obtain ⟨payload, -, hm'⟩ := hwritten edit hedit context _ position hfit
      exact ⟨_, hm', .inr (Member.recoded_setPayload hfit.code payload)⟩
    · exact ⟨m, (hothers i hi).trans hm, .inl rfl⟩

end Patch

namespace ClassFile.Retouched

variable {p : Patch} {c c' : ClassFile}

/-- The table of the pool does not matter. -/
theorem ofSlots (h : Retouched p c c') :
    Retouched p c { c' with pool := .ofSlots c'.pool.slots } :=
  ⟨h.version, h.flags, h.thisClass, h.superClass, h.interfaces, h.fields, h.attributes, h.pool,
    h.size, h.left, h.recoded⟩

/-- The names that a class is found by stay. -/
theorem checkNames (h : Retouched p c c') (hpool : c.pool ≤ c'.pool)
    (hnames : c.checkNames = .ok ()) : c'.checkNames = .ok () := by
  obtain ⟨-, -, -, hmethods⟩ := checkNames_eq_ok.mp hnames
  refine checkNames_mono hpool h.thisClass h.superClass h.interfaces (fun m' hm' => ?_) hnames
  obtain ⟨i, hi⟩ := List.getElem?_of_mem hm'
  rw [Array.getElem?_toList] at hi
  have hlt : i < c.methods.size := h.size ▸ (Array.getElem?_eq_some_iff.mp hi).1
  obtain ⟨m'', hm'', hsame⟩ := h.recoded (Array.getElem?_eq_getElem hlt)
  obtain rfl := Option.some.inj (hi.symm.trans hm'')
  obtain ⟨⟨s, hs⟩, ⟨t, ht⟩⟩ := hmethods _ (Array.getElem_mem_toList hlt)
  have hsignature : m'.name = c.methods[i].name ∧ m'.descriptor = c.methods[i].descriptor := by
    obtain rfl | hrecoded := hsame
    · exact ⟨rfl, rfl⟩
    · exact ⟨hrecoded.name, hrecoded.descriptor⟩
  rw [hsignature.1, hsignature.2]
  exact ⟨⟨s, ConstantPool.text_mono hpool hs⟩, ⟨t, ConstantPool.text_mono hpool ht⟩⟩

end ClassFile.Retouched

namespace Dispatcher

variable {d : Dispatcher} {className : String} {bytes bytes' : Bytes} {log log' : Log}

/-- What happens when a class is replaced. -/
theorem exists_of_replaced (h : d.apply className bytes log = .ok (.replaced bytes') log') :
    ∃ p c c' edits log₁ log₂, d.find? className = some p ∧ ClassFile.ofBytes bytes = .ok c ∧
      p.plan c log₁ = .ok (.edit edits) log₂ ∧ Patch.carryOut edits c = .ok () c' ∧
      c'.toBytes = .ok bytes' := by
  rw [apply] at h
  cases hfind : d.find? className with
  | none =>
    rw [hfind] at h
    cases (EStateM.pure_eq_ok.mp h).1
  | some p =>
    rw [hfind] at h
    dsimp only at h
    rw [patchBytes] at h
    obtain ⟨⟨⟩, log₁, -, h⟩ := EStateM.bind_eq_ok.mp h
    rw [LogM.ofExcept_bind] at h
    obtain ⟨c, hc, h⟩ := h
    rw [EStateM.get_bind] at h
    obtain ⟨⟨⟩, log₂, -, h⟩ := EStateM.bind_eq_ok.mp h
    rw [LogM.ofExcept_bind] at h
    obtain ⟨outcome, houtcome, h⟩ := h
    cases outcome with
    | unchanged | rejected =>
      obtain ⟨⟨⟩, log₃, -, h⟩ := EStateM.bind_eq_ok.mp h
      cases (EStateM.pure_eq_ok.mp h).1
    | patched methods =>
      obtain ⟨⟨⟩, log₃, -, h⟩ := EStateM.bind_eq_ok.mp h
      rw [LogM.ofExcept_bind] at h
      obtain ⟨written, hwritten, h⟩ := h
      obtain ⟨hwritten', -⟩ := EStateM.pure_eq_ok.mp h
      obtain rfl := Replacement.replaced.inj hwritten'
      obtain ⟨edits, log₄, hplan, hcarried⟩ := Patch.exists_of_patched houtcome
      exact ⟨p, c, _, edits, log₁, log₄, rfl, hc, hplan, hcarried, hwritten⟩

/-- Whatever class a dispatcher replaces, the bytes that it gives can be read, and they touch
nothing but the code of the methods that the patch changes. -/
theorem retouched_of_replaced (h : d.apply className bytes log = .ok (.replaced bytes') log') :
    ∃ p c c', d.find? className = some p ∧ ClassFile.ofBytes bytes = .ok c ∧
      ClassFile.ofBytes bytes' = .ok c' ∧ ClassFile.Retouched p c c' := by
  obtain ⟨p, c, c', edits, log₁, log₂, hfind, hread, hplan, hcarried, hwrite⟩ :=
    exists_of_replaced h
  have hpool := ClassFile.pool_of_ofBytes hread
  have hretouched := Patch.retouched_of_carryOut hpool.1 hplan hcarried
  have hgrown := Patch.grownFrom_of_carryOut hpool.1 hplan hcarried
  have hnames := hretouched.checkNames hgrown.le (ClassFile.names_of_ofBytes hread)
  have hsound := hgrown.keeps ConstantPool.lasting_sound hpool.2
  exact ⟨p, c, _, hfind, hread, ClassFile.ofBytes_of_toBytes hsound hnames hwrite,
    hretouched.ofSlots⟩

/-- A class with one method of the given code. -/
private def withCode (code : Bytes) : Bytes :=
  [202, 254, 186, 190, 0, 0, 0, 49, 0, 6, 1, 0, 1, 65, 7, 0, 1, 1, 0, 1, 109, 1, 0, 3, 40, 41, 73,
    1, 0, 4, 67, 111, 100, 101, 0, 33, 0, 2, 0, 0, 0, 0, 0, 0, 0, 1, 0, 8, 0, 3, 0, 4, 0, 1, 0, 5,
    0, 0, 0, UInt8.ofNat (12 + code.length), 0, 1, 0, 0, 0, 0, 0, UInt8.ofNat code.length] ++
    code ++
    [0, 0, 0, 0, 0, 0]

/-- Drops every `nop` and rejects a method that has none. -/
private def dropNops : Machine Nat where
  initial := 0
  step dropped e :=
    if e = .instr (.plain Opcode.nop) then return (dropped + 1, []) else return (dropped, [e])
  finish dropped := if dropped = 0 then throw (.other "no nop") else return []

private theorem blind_dropNops : dropNops.Blind where
  step _ _ := .ite (.pure _) (.pure _)
  finish _ := .ite (.throw _) (.pure _)

private def returnSeven : Dispatcher :=
  ⟨[⟨"P", "", .ofName "A",
    [.ofTransform "m" (.ofMachine (fun _ => dropNops) fun _ => blind_dropNops),
      .mk "m" (.constantResult ⟨.int 7, some .int⟩)]⟩]⟩

/-- A method that does nothing and returns two is made to return seven, in two stages. -/
theorem retouched_of_replaced_nops :
    ∃ log, returnSeven.apply "A" (withCode [0, 5, 172]) #[] =
        .ok (.replaced (withCode [16, 7, 172])) log ∧
      ∃ p c c', returnSeven.find? "A" = some p ∧ ClassFile.ofBytes (withCode [0, 5, 172]) = .ok c ∧
        ClassFile.ofBytes (withCode [16, 7, 172]) = .ok c' ∧ ClassFile.Retouched p c c' := by
  have h : returnSeven.apply "A" (withCode [0, 5, 172]) #[] =
      .ok (.replaced (withCode [16, 7, 172]))
        #[.transforming "A" "P", .replacing "A" "m", .patched "A" ["m"] "P"] := by
    cbv
  exact ⟨_, h, retouched_of_replaced h⟩

end Dispatcher
end ClassPatch
