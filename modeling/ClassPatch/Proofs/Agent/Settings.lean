import ClassPatch.Config
import ClassPatch.Proofs.Outcome
import ClassPatch.Proofs.Text.Digits
import Mathlib.Data.List.TakeDrop
import Mathlib.Data.List.TakeWhile

/-!
# The words of a configuration

`Setting.Writes word s` says that a word is a written form of a setting. The forms exclude each
other, because all that are not assignments begin with a dash and the family of an assignment does
not, so what is read from a word is the setting that it writes.
-/

namespace ClassPatch

namespace Setting

/-- The word is a written form of the setting. -/
inductive Writes : List Char → Setting → Prop
  | verbose : Writes "--verbose".toList (.reporting true)
  | quiet : Writes "--quiet".toList .quiet
  | reportingTrue : Writes "--log4jFixerVerbose=true".toList (.reporting true)
  | reportingFalse : Writes "--log4jFixerVerbose=false".toList (.reporting false)
  | disable {name : List Char} (hname : name ≠ []) :
      Writes ("--disable-".toList ++ name) (.disable (String.ofList name))
  | version {family text : List Char} {n : UInt32} (hfamily : family ≠ [])
      (hdash : family.head? ≠ some '-') (hequals : '=' ∉ family)
      (htext : Text.Decimal.Writes text n) :
      Writes (family ++ '=' :: text) (.version (String.ofList family) n)

variable {word family text : List Char} {s s' : Setting}

/-! ### Assignments -/

/-- A word is split at its first equals sign. -/
theorem splitAssignment_eq_some :
    splitAssignment word = some (family, text) ↔ word = family ++ '=' :: text ∧ '=' ∉ family := by
  rw [splitAssignment, List.span_eq_takeWhile_dropWhile]
  constructor
  · intro h
    have hfamily : '=' ∉ word.takeWhile (· ≠ '=') := fun hmem => by
      simpa using List.mem_takeWhile_imp hmem
    split at h
    · rename_i front c behind hspan
      obtain ⟨rfl, rfl⟩ := Prod.mk.inj (Option.some.inj h)
      obtain ⟨hfront, hbehind⟩ := Prod.mk.inj hspan
      have hc : c = '=' := by
        have hhead := List.head?_dropWhile_not (· ≠ '=') word
        rw [hbehind] at hhead
        simpa using hhead
      refine ⟨?_, hfront ▸ hfamily⟩
      rw [← hc, ← hbehind, ← hfront, List.takeWhile_append_dropWhile]
    · cases h
  · rintro ⟨rfl, hfamily⟩
    have hall : ∀ c ∈ family, decide (c ≠ '=') = true := fun c hc =>
      decide_eq_true fun heq => hfamily (heq ▸ hc)
    rw [List.takeWhile_append_of_pos hall, List.dropWhile_append_of_pos hall]
    simp

/-- What is read from an assignment is what it writes. -/
theorem readAssignment_eq_ok : readAssignment word = .ok s ↔
    ∃ family text n, word = family ++ '=' :: text ∧ family ≠ [] ∧ family.head? ≠ some '-' ∧
      '=' ∉ family ∧ Text.Decimal.Writes text n ∧ s = .version (String.ofList family) n := by
  rw [readAssignment]
  constructor
  · intro h
    split at h
    · cases h
    · rename_i family text hsplit
      obtain ⟨rfl, hequals⟩ := splitAssignment_eq_some.mp hsplit
      split at h
      · cases h
      · rename_i hname
        rw [Bool.or_eq_true, List.isEmpty_iff, decide_eq_true_iff, not_or] at hname
        split at h
        · rename_i n hn
          exact ⟨family, text, n, rfl, hname.1, hname.2, hequals,
            Text.Decimal.readUInt32_eq_some_iff.mp hn, (Except.ok.inj h).symm⟩
        · cases h
  · rintro ⟨family, text, n, rfl, hfamily, hdash, hequals, htext, rfl⟩
    have hname : ¬(family.isEmpty || decide (family.head? = some '-')) = true := by
      rw [Bool.or_eq_true, List.isEmpty_iff, decide_eq_true_iff, not_or]
      exact ⟨hfamily, hdash⟩
    simp only [splitAssignment_eq_some.mpr ⟨rfl, hequals⟩, if_neg hname,
      Text.Decimal.readUInt32_eq_some_iff.mpr htext]

/-! ### All words -/

/-- Without a dash in front a word can only be an assignment. -/
theorem read_of_head? (h : word.head? ≠ some '-') : read word = readAssignment word := by
  cases word with
  | nil => rfl
  | cons c rest =>
    have hc : ('-' == c) = false := beq_false_of_ne fun heq => h (congrArg some heq.symm)
    have hne (text : List Char) : c :: rest ≠ '-' :: text := fun heq =>
      h (congrArg some (List.cons.inj heq).1)
    have hprefix (flag : List Char) : ('-' :: flag).isPrefixOf? (c :: rest) = none := by
      rw [List.isPrefixOf?, hc]
      rfl
    have hverbose : c :: rest ≠ "--verbose".toList := hne _
    have hquiet : c :: rest ≠ "--quiet".toList := hne _
    have hreporting : reportingFlag.toList.isPrefixOf? (c :: rest) = none := hprefix _
    have hdisable : disableFlag.toList.isPrefixOf? (c :: rest) = none := hprefix _
    rw [read, if_neg hverbose, if_neg hquiet, hreporting, hdisable]

theorem read_of_writes (h : Writes word s) : read word = .ok s := by
  cases h with
  | verbose | quiet | reportingTrue | reportingFalse => rfl
  | @disable name hname =>
    cases name with
    | nil => exact absurd rfl hname
    | cons => rfl
  | @version family text n hfamily hdash hequals htext =>
    have hhead : (family ++ '=' :: text).head? ≠ some '-' := by
      rwa [List.head?_append_of_ne_nil family hfamily]
    rw [read_of_head? hhead]
    exact readAssignment_eq_ok.mpr ⟨family, text, n, rfl, hfamily, hdash, hequals, htext, rfl⟩

theorem writes_of_read (h : read word = .ok s) : Writes word s := by
  rw [read] at h
  split at h
  · rename_i hword
    obtain rfl := Except.ok.inj h
    exact hword ▸ .verbose
  split at h
  · rename_i hword
    obtain rfl := Except.ok.inj h
    exact hword ▸ .quiet
  split at h
  · rename_i value hflag
    obtain rfl := List.isPrefixOf?_eq_some_iff_append_eq.mp hflag
    split at h
    · rename_i hvalue
      obtain rfl := Except.ok.inj h
      exact hvalue ▸ .reportingTrue
    split at h
    · rename_i hvalue
      obtain rfl := Except.ok.inj h
      exact hvalue ▸ .reportingFalse
    · cases h
  split at h
  · cases h
  · rename_i name hne hflag
    obtain rfl := List.isPrefixOf?_eq_some_iff_append_eq.mp hflag
    obtain rfl := Except.ok.inj h
    exact .disable fun hname => hne hname
  · obtain ⟨family, text, n, rfl, hfamily, hdash, hequals, htext, rfl⟩ := readAssignment_eq_ok.mp h
    exact .version hfamily hdash hequals htext

/-- What is read from a word is the setting that it writes. -/
theorem read_eq_ok_iff : read word = .ok s ↔ Writes word s := ⟨writes_of_read, read_of_writes⟩

theorem Writes.unique (h : Writes word s) (h' : Writes word s') : s = s' :=
  Except.ok.inj ((read_of_writes h).symm.trans (read_of_writes h'))

end Setting
end ClassPatch
