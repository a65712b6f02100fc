import ClassPatch.Text.Blank

/-!
# The words of a text

`Runs separates text words` lays a text out as words and separators: each word is a run of
characters that do not separate, as long as it can be. A text is laid out in one way, which is the
one that `words` finds.
-/

namespace ClassPatch.Text

/-- A text as words between separators. A word ends where the text does, or in front of a
separator. -/
inductive Runs (separates : Char → Bool) : List Char → List (List Char) → Prop
  | nil : Runs separates [] []
  | separator {c : Char} {rest : List Char} {words : List (List Char)} (hc : separates c = true)
      (h : Runs separates rest words) : Runs separates (c :: rest) words
  | word {word rest : List Char} {words : List (List Char)} (hne : word ≠ [])
      (hword : ∀ c ∈ word, separates c = false) (hend : ∀ c ∈ rest.head?, separates c = true)
      (h : Runs separates rest words) : Runs separates (word ++ rest) (word :: words)

variable {separates : Char → Bool} {text word rest current : List Char} {found : List (List Char)}

/-! ### The scan -/

/-- Finished words stay in front. -/
theorem wordsFrom_eq_append (current : List Char) (found : List (List Char)) (text : List Char) :
    wordsFrom separates current found text =
      found.reverse ++ wordsFrom separates current [] text := by
  induction text generalizing current found with
  | nil => by_cases hcurrent : current.isEmpty <;> simp [wordsFrom, hcurrent]
  | cons c rest ih =>
    rw [wordsFrom, wordsFrom]
    by_cases hc : separates c = true
    · rw [if_pos hc, if_pos hc, ih [] (if current.isEmpty then found else _),
        ih [] (if current.isEmpty then [] else _)]
      by_cases hcurrent : current.isEmpty <;> simp [hcurrent]
    · rw [if_neg hc, if_neg hc]
      exact ih (c :: current) found

/-- Characters that do not separate belong to the run. -/
theorem wordsFrom_append (h : ∀ c ∈ word, separates c = false) :
    wordsFrom separates current found (word ++ rest) =
      wordsFrom separates (word.reverse ++ current) found rest := by
  induction word generalizing current with
  | nil => rfl
  | cons c word ih =>
    rw [List.forall_mem_cons] at h
    rw [List.cons_append, wordsFrom, if_neg (Bool.eq_false_iff.mp h.1), ih h.2, List.reverse_cons,
      List.append_assoc, List.singleton_append]

theorem words_cons_of_separates {c : Char} (hc : separates c = true) (rest : List Char) :
    words separates (c :: rest) = words separates rest :=
  if_pos hc

/-- A run ends in front of a separator. -/
theorem wordsFrom_of_end (hcurrent : current ≠ []) (hend : ∀ c ∈ rest.head?, separates c = true) :
    wordsFrom separates current [] rest = current.reverse :: words separates rest := by
  have hempty : current.isEmpty = false := List.isEmpty_eq_false_iff.mpr hcurrent
  cases rest with
  | nil => simp [wordsFrom, words, hempty]
  | cons c rest =>
    have hc : separates c = true := hend c rfl
    rw [wordsFrom, if_pos hc, hempty, wordsFrom_eq_append, words_cons_of_separates hc]
    rfl

theorem words_append (hne : word ≠ []) (hword : ∀ c ∈ word, separates c = false)
    (hend : ∀ c ∈ rest.head?, separates c = true) :
    words separates (word ++ rest) = word :: words separates rest := by
  have hreverse : word.reverse ≠ [] := mt List.reverse_eq_nil_iff.mp hne
  rw [words, wordsFrom_append hword, List.append_nil, wordsFrom_of_end hreverse hend,
    List.reverse_reverse]

/-! ### The layout -/

theorem Runs.words_eq (h : Runs separates text found) : words separates text = found := by
  induction h with
  | nil => rfl
  | separator hc _ ih => rw [words_cons_of_separates hc, ih]
  | word hne hword hend _ ih => rw [words_append hne hword hend, ih]

/-- What comes first in a text that does not begin with a separator is a word. -/
theorem exists_word_append {c : Char} (hc : separates c = false) (rest : List Char) :
    ∃ word behind, c :: rest = word ++ behind ∧ word ≠ [] ∧ (∀ d ∈ word, separates d = false) ∧
      ∀ d ∈ behind.head?, separates d = true := by
  induction rest generalizing c with
  | nil => exact ⟨[c], [], rfl, nofun, by simpa using hc, nofun⟩
  | cons d rest ih =>
    cases hd : separates d with
    | true => exact ⟨[c], d :: rest, rfl, nofun, by simpa using hc, by simpa using hd⟩
    | false =>
      obtain ⟨word, behind, htext, -, hword, hend⟩ := ih hd
      exact ⟨c :: word, behind, by rw [htext, List.cons_append], nofun,
        List.forall_mem_cons.mpr ⟨hc, hword⟩, hend⟩

theorem runs_words (separates : Char → Bool) (text : List Char) :
    Runs separates text (words separates text) := by
  -- What is left behind a word is shorter, but no tail of the text by a pattern.
  induction hlength : text.length using Nat.strongRecOn generalizing text with
  | _ length ih =>
    subst hlength
    cases text with
    | nil => exact .nil
    | cons c rest =>
      cases hc : separates c with
      | true =>
        rw [words_cons_of_separates hc]
        exact .separator hc (ih rest.length (Nat.lt_succ_self _) rest rfl)
      | false =>
        obtain ⟨word, behind, htext, hne, hword, hend⟩ := exists_word_append hc rest
        have hshorter : behind.length < (c :: rest).length := by
          rw [htext, List.length_append]
          exact Nat.lt_add_of_pos_left (List.length_pos_iff.mpr hne)
        rw [htext, words_append hne hword hend]
        exact .word hne hword hend (ih behind.length hshorter behind rfl)

theorem runs_iff : Runs separates text found ↔ found = words separates text := by
  constructor
  · exact fun h => h.words_eq.symm
  · rintro rfl
    exact runs_words separates text

end ClassPatch.Text
