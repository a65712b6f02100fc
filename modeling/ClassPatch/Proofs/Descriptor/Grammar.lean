import ClassPatch.Descriptor.Method
import ClassPatch.Proofs.Outcome
import Mathlib.Data.List.TakeWhile
import Mathlib.Tactic.FinCases

/-!
# The grammar of descriptors

The grammar says which texts are descriptors without reading them. A reader takes the descriptor of
a type from the front of a text exactly if the text begins with it, so a whole text is read exactly
if it belongs to the grammar, however long it is and however deep its arrays are nested. What has
been read is written as the same text.
-/

namespace ClassPatch

/-- The texts that are field types. -/
inductive IsFieldType : List Char → Prop
  | primitive {letter : Char} (h : letter ∈ ['B', 'C', 'D', 'F', 'I', 'J', 'S', 'Z']) :
      IsFieldType [letter]
  | object {name : List Char} (hne : name ≠ []) (hname : ';' ∉ name) :
      IsFieldType ('L' :: name ++ [';'])
  | array {element : List Char} (h : IsFieldType element) : IsFieldType ('[' :: element)

/-- The texts that are method descriptors. -/
inductive IsMethodDescriptor : List Char → Prop
  | void {parameters : List (List Char)} (h : ∀ text ∈ parameters, IsFieldType text) :
      IsMethodDescriptor ('(' :: parameters.flatten ++ ')' :: ['V'])
  | valued {parameters : List (List Char)} {result : List Char}
      (h : ∀ text ∈ parameters, IsFieldType text) (hresult : IsFieldType result) :
      IsMethodDescriptor ('(' :: parameters.flatten ++ ')' :: result)

/-! ### Field types -/

namespace FieldType

/-- A name of a class in the type has characters, but not the one that ends it. -/
def Named : FieldType → Prop
  | object name => name.toList ≠ [] ∧ ';' ∉ name.toList
  | array element => element.Named
  | _ => True

variable {t : FieldType} {text rest : List Char}

/-- The name goes up to the first semicolon. -/
theorem readClass_eq_ok_iff {back : List Char} : readClass text back = .ok (t, rest) ↔
    ∃ name, t = object (String.ofList name) ∧ name ≠ [] ∧ ';' ∉ name ∧
      back = name ++ ';' :: rest := by
  constructor
  · intro h
    have hback : back.takeWhile (· ≠ ';') ++ back.dropWhile (· ≠ ';') = back :=
      List.takeWhile_append_dropWhile
    have hname : ';' ∉ back.takeWhile (· ≠ ';') := by
      intro hmem
      simpa using List.mem_takeWhile_imp hmem
    unfold readClass at h
    split at h
    · cases h
    · cases h
    · rename_i last rest' hend hne
      obtain ⟨rfl, rfl⟩ := Prod.mk.inj (Except.ok.inj h)
      have hlast : last = ';' := by
        have hstop := List.head?_dropWhile_not (· ≠ ';') back
        rw [hend] at hstop
        simpa using hstop
      rw [hend, hlast] at hback
      exact ⟨_, rfl, hne, hname, hback.symm⟩
  · rintro ⟨name, rfl, hne, hname, rfl⟩
    have hall : ∀ c ∈ name, decide (c ≠ ';') = true := by
      intro c hc
      exact decide_eq_true fun heq => hname (heq ▸ hc)
    unfold readClass
    rw [List.takeWhile_append_of_pos hall, List.dropWhile_append_of_pos hall,
      List.takeWhile_cons_of_neg (by simp), List.dropWhile_cons_of_neg (by simp), List.append_nil]
    split
    · contradiction
    · contradiction
    · rename_i hend
      obtain ⟨-, rfl⟩ := List.cons.inj hend
      rfl

/-- What stands behind the descriptor of a type is not looked at. -/
theorem read_chars_append (h : t.Named) (rest : List Char) :
    read (t.chars ++ rest) = .ok (t, rest) := by
  induction t with
  | object name =>
    have hclass : read ('L' :: (name.toList ++ ';' :: rest)) = .ok (object name, rest) := by
      rw [read, readClass_eq_ok_iff]
      exact ⟨name.toList, by rw [String.ofList_toList], h.1, h.2, rfl⟩
    simpa [chars] using hclass
  | array element ih =>
    rw [chars, List.cons_append, read, ih h]
  | _ => rfl

/-- What is read is the descriptor at the front of the text. -/
theorem eq_append_of_read (h : read text = .ok (t, rest)) : t.Named ∧ text = t.chars ++ rest := by
  fun_induction read text generalizing t with
  | case10 back =>
    obtain ⟨name, rfl, hne, hname, rfl⟩ := readClass_eq_ok_iff.mp h
    rw [← String.toList_ofList (l := name)] at hne hname
    exact ⟨⟨hne, hname⟩, by simp [chars]⟩
  | case11 back element rest' hread ih =>
    obtain ⟨rfl, rfl⟩ := Prod.mk.inj (Except.ok.inj h)
    obtain ⟨hnamed, rfl⟩ := ih hread
    exact ⟨hnamed, rfl⟩
  | case1 | case12 | case13 => cases h
  | _ =>
    obtain ⟨rfl, rfl⟩ := Prod.mk.inj (Except.ok.inj h)
    exact ⟨trivial, rfl⟩

theorem read_eq_ok_iff : read text = .ok (t, rest) ↔ t.Named ∧ text = t.chars ++ rest := by
  constructor
  · exact eq_append_of_read
  · rintro ⟨hnamed, rfl⟩
    exact read_chars_append hnamed rest

theorem parse_eq_ok_iff {text : String} : parse text = .ok t ↔ t.Named ∧ t.descriptor = text := by
  have hread : parse text = .ok t ↔ read text.toList = .ok (t, []) := by
    unfold parse
    split
    · rename_i hread
      simp [hread]
    · rename_i hread
      exact iff_of_false nofun (by simp [hread])
    · rename_i hread
      simp [hread]
  rw [hread, read_eq_ok_iff, List.append_nil, descriptor, ← String.toList_inj, String.toList_ofList,
    eq_comm (a := t.chars)]

/-- The grammar has what types are written as. -/
theorem isFieldType_iff : IsFieldType text ↔ ∃ t : FieldType, t.Named ∧ t.chars = text := by
  constructor
  · intro h
    induction h with
    | @primitive letter h =>
      have hletter : ∃ t ∈ [byte, char, double, float, int, long, short, boolean],
          t.Named ∧ t.chars = [letter] := by
        fin_cases h <;> simp [Named, chars]
      obtain ⟨t, -, ht⟩ := hletter
      exact ⟨t, ht⟩
    | @object name hne hname =>
      refine ⟨object (String.ofList name), ?_, ?_⟩
      · rw [Named, String.toList_ofList]
        exact ⟨hne, hname⟩
      · rw [chars, String.toList_ofList]
    | array _ ih =>
      obtain ⟨t, hnamed, rfl⟩ := ih
      exact ⟨array t, hnamed, rfl⟩
  · rintro ⟨t, hnamed, rfl⟩
    induction t with
    | object name => exact .object hnamed.1 hnamed.2
    | array element ih => exact .array (ih hnamed)
    | _ => exact .primitive (by decide)

/-- No type begins where a list of parameters ends. -/
theorem chars_append_ne (t : FieldType) (back rest : List Char) :
    t.chars ++ back ≠ ')' :: rest := by
  cases t <;> simp [chars]

theorem chars_ne_void (t : FieldType) : t.chars ≠ ['V'] := by
  cases t <;> simp [chars]

end FieldType

/-! ### Method descriptors -/

namespace MethodDescriptor

open FieldType (chars)

/-- The names of classes have characters, but not the one that ends them. -/
def Named (d : MethodDescriptor) : Prop :=
  (∀ t ∈ d.parameters, t.Named) ∧ ∀ t ∈ d.result, t.Named

variable {text rest : List Char}

theorem readParameters_eq_ok_iff {before parameters : List FieldType} :
    readParameters before text = .ok (parameters, rest) ↔
      ∃ more, parameters = before.reverse ++ more ∧ (∀ t ∈ more, t.Named) ∧
        text = more.flatMap chars ++ ')' :: rest := by
  constructor
  · intro h
    fun_induction readParameters before text with
    | case1 before back =>
      obtain ⟨rfl, rfl⟩ := Prod.mk.inj (Except.ok.inj h)
      exact ⟨[], (List.append_nil _).symm, nofun, rfl⟩
    | case2 before text hopen t back hread ih =>
      obtain ⟨hnamed, rfl⟩ := FieldType.eq_append_of_read hread
      obtain ⟨more, rfl, hmore, rfl⟩ := ih h
      refine ⟨t :: more, ?_, List.forall_mem_cons.mpr ⟨hnamed, hmore⟩, ?_⟩
      · rw [List.reverse_cons, List.append_assoc, List.singleton_append]
      · rw [List.flatMap_cons, List.append_assoc]
    | case3 => cases h
  · rintro ⟨more, rfl, hmore, rfl⟩
    induction more generalizing before with
    | nil => simp [readParameters]
    | cons t more ih =>
      obtain ⟨hnamed, hmore⟩ := List.forall_mem_cons.mp hmore
      have hread := FieldType.read_chars_append hnamed (more.flatMap chars ++ ')' :: rest)
      have hrest : readParameters (t :: before) (more.flatMap chars ++ ')' :: rest) =
        .ok ((t :: before).reverse ++ more, rest) := ih hmore
      rw [List.flatMap_cons, List.append_assoc]
      unfold readParameters
      split
      · rename_i heq
        exact absurd heq (t.chars_append_ne _ _)
      · split
        · rename_i t' back hread'
          obtain ⟨rfl, rfl⟩ := Prod.mk.inj (Except.ok.inj (hread.symm.trans hread'))
          rw [hrest, List.reverse_cons, List.append_assoc, List.singleton_append]
        · rename_i e herror
          cases hread.symm.trans herror

theorem readResult_eq_ok_iff {result : Option FieldType} :
    readResult text = .ok result ↔
      (∀ t ∈ result, t.Named) ∧ (result.map chars).getD ['V'] = text := by
  cases result with
  | none =>
    unfold readResult
    split
    · simp
    · rename_i hvoid
      refine iff_of_false (fun h => ?_) (fun h => hvoid h.2.symm)
      obtain ⟨t, -, h⟩ := Except.map_eq_ok.mp h
      cases h
  | some t =>
    unfold readResult
    split
    · exact iff_of_false nofun fun h => t.chars_ne_void h.2
    · simp [Except.map_eq_ok, FieldType.parse_eq_ok_iff, FieldType.descriptor, ← String.toList_inj]

theorem toList_descriptor (d : MethodDescriptor) : d.descriptor.toList =
    '(' :: d.parameters.flatMap chars ++ ')' :: (d.result.map chars).getD ['V'] :=
  String.toList_ofList

theorem parse_eq_ok_iff {text : String} {d : MethodDescriptor} :
    parse text = .ok d ↔ d.Named ∧ d.descriptor = text := by
  rw [← String.toList_inj, toList_descriptor]
  constructor
  · intro h
    unfold parse at h
    split at h
    · rename_i back htext
      obtain ⟨⟨parameters, rest⟩, hparameters, h⟩ := Except.bind_eq_ok.mp h
      obtain ⟨result, hresult, h⟩ := Except.bind_eq_ok.mp h
      obtain rfl := Except.pure_eq_ok.mp h
      obtain ⟨more, rfl, hnamed, rfl⟩ := readParameters_eq_ok_iff.mp hparameters
      obtain ⟨hresultNamed, rfl⟩ := readResult_eq_ok_iff.mp hresult
      rw [htext]
      exact ⟨⟨hnamed, hresultNamed⟩, rfl⟩
    · cases h
  · rintro ⟨hnamed, htext⟩
    have hparameters : readParameters []
        (d.parameters.flatMap chars ++ ')' :: (d.result.map chars).getD ['V']) =
          .ok (d.parameters, (d.result.map chars).getD ['V']) :=
      readParameters_eq_ok_iff.mpr ⟨d.parameters, rfl, hnamed.1, rfl⟩
    have hresult := readResult_eq_ok_iff.mpr ⟨hnamed.2, rfl⟩
    unfold parse
    rw [← htext]
    exact Except.bind_eq_ok.mpr ⟨_, hparameters, Except.bind_eq_ok.mpr ⟨_, hresult, rfl⟩⟩

/-- The grammar has what descriptors are written as. -/
theorem isMethodDescriptor_iff :
    IsMethodDescriptor text ↔ ∃ d : MethodDescriptor, d.Named ∧ d.descriptor.toList = text := by
  have hlist {texts : List (List Char)} (h : ∀ text ∈ texts, IsFieldType text) :
      ∃ types : List FieldType, (∀ t ∈ types, t.Named) ∧ types.flatMap chars = texts.flatten := by
    induction texts with
    | nil => exact ⟨[], nofun, rfl⟩
    | cons text texts ih =>
      obtain ⟨htext, htexts⟩ := List.forall_mem_cons.mp h
      obtain ⟨t, hnamed, rfl⟩ := FieldType.isFieldType_iff.mp htext
      obtain ⟨types, htypes, heq⟩ := ih htexts
      refine ⟨t :: types, List.forall_mem_cons.mpr ⟨hnamed, htypes⟩, ?_⟩
      rw [List.flatMap_cons, List.flatten_cons, heq]
  constructor
  · intro h
    cases h with
    | void h =>
      obtain ⟨types, hnamed, heq⟩ := hlist h
      refine ⟨⟨types, none⟩, ⟨hnamed, nofun⟩, ?_⟩
      rw [toList_descriptor, heq]
      rfl
    | valued h hresult =>
      obtain ⟨types, hnamed, heq⟩ := hlist h
      obtain ⟨t, ht, rfl⟩ := FieldType.isFieldType_iff.mp hresult
      refine ⟨⟨types, some t⟩, ⟨hnamed, by simpa using ht⟩, ?_⟩
      rw [toList_descriptor, heq]
      rfl
  · rintro ⟨⟨parameters, result⟩, ⟨hnamed, hresult⟩, rfl⟩
    have htexts : ∀ text ∈ parameters.map chars, IsFieldType text := by
      rw [List.forall_mem_map]
      exact fun t ht => FieldType.isFieldType_iff.mpr ⟨t, hnamed t ht, rfl⟩
    rw [toList_descriptor, List.flatMap_def]
    cases result with
    | none => exact .void htexts
    | some t => exact .valued htexts (FieldType.isFieldType_iff.mpr ⟨t, hresult t rfl, rfl⟩)

end MethodDescriptor

/-- A text is read as a field type, or as a method descriptor, if and only if the whole of it
belongs to the grammar, and then what has been read is the one value that is written as this
text. -/
theorem descriptor_iff_grammar (text : String) :
    ((∃ t, FieldType.parse text = .ok t) ↔ IsFieldType text.toList) ∧
    (∀ t, FieldType.parse text = .ok t ↔ t.Named ∧ t.descriptor = text) ∧
    ((∃ d, MethodDescriptor.parse text = .ok d) ↔ IsMethodDescriptor text.toList) ∧
    (∀ d, MethodDescriptor.parse text = .ok d ↔ d.Named ∧ d.descriptor = text) := by
  refine ⟨?_, fun t => FieldType.parse_eq_ok_iff, ?_, fun d => MethodDescriptor.parse_eq_ok_iff⟩
  · rw [FieldType.isFieldType_iff]
    simp only [FieldType.parse_eq_ok_iff, FieldType.descriptor, ← String.toList_inj,
      String.toList_ofList]
  · rw [MethodDescriptor.isMethodDescriptor_iff]
    simp only [MethodDescriptor.parse_eq_ok_iff, String.toList_inj]

end ClassPatch
