import ClassPatch.Proofs.ClassFile.Edit
import ClassPatch.Proofs.Code.LargerPools

/-!
# Methods in larger classes

A method is read alike in every class of the same name and version that has the same constants at
the same indices, and maybe more.
-/

namespace ClassPatch.ClassFile

/-- The second class has the name and the version of the first, and its constants where they are. -/
structure Within (c c' : ClassFile) : Prop where
  thisClass : c'.thisClass = c.thisClass
  version : c'.version = c.version
  pool : c.pool.slots.toList <+: c'.pool.slots.toList

namespace Within

variable {c c' : ClassFile} (h : c.Within c') {index : Nat}
include h

/-- A method has the same place if it has the same signature. -/
theorem methodContext {m m' : Member} (hm : c.methods[index]? = some m)
    (hm' : c'.methods[index]? = some m') (hflags : m'.flags = m.flags) (hname : m'.name = m.name)
    (hdescriptor : m'.descriptor = m.descriptor) :
    (c.methodContext index).RepeatedBy (c'.methodContext index) := by
  intro context hcontext
  obtain ⟨m₁, hm₁, hclass, hmethod, hdescribed, hstatic, hmajor⟩ := methodContext_eq_ok.mp hcontext
  obtain rfl := Option.some.inj (hm.symm.trans hm₁)
  refine methodContext_eq_ok.mpr ⟨m', hm', ?_, ?_, ?_, ?_, ?_⟩
  · rw [name, h.thisClass]
    exact ConstantPool.className_of_isPrefix h.pool hclass
  · rw [hname]
    exact ConstantPool.text_of_isPrefix h.pool hmethod
  · rw [hdescriptor]
    exact ConstantPool.text_of_isPrefix h.pool hdescribed
  · rw [← hstatic, Member.isStatic, hflags]
    rfl
  · rw [h.version]
    exact hmajor

/-- A method that is the same is in the same place. -/
theorem methodContext_of_eq (hm : c'.methods[index]? = c.methods[index]?) :
    (c.methodContext index).RepeatedBy (c'.methodContext index) := by
  intro context hcontext
  obtain ⟨m, hat, -⟩ := methodContext_eq_ok.mp hcontext
  exact h.methodContext hat (hm.trans hat) rfl rfl rfl context hcontext

/-- A method that is the same has the same body. -/
theorem methodBody (hm : c'.methods[index]? = c.methods[index]?) :
    (c.methodBody index).RepeatedBy (c'.methodBody index) := by
  have hmethod : c'.method index = c.method index := by rw [method, hm, method]
  refine (h.methodContext_of_eq hm).bind fun context => ?_
  rw [hmethod]
  refine .bind (.refl _) fun m =>
    .bind (fun _ => Member.codePosition_of_isPrefix h.pool) fun found => ?_
  cases found with
  | none => exact .refl _
  | some position =>
    dsimp only
    split
    · exact .refl _
    · exact .map fun _ => Body.decode_of_isPrefix h.pool

end Within
end ClassPatch.ClassFile
