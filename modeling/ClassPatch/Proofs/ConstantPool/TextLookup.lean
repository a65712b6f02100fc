import ClassPatch.Proofs.ConstantPool.FirstIndex
import ClassPatch.Proofs.Evaluation
import ClassPatch.Proofs.Text.Spelling

/-!
# Looking up text

A text is looked up by the bytes that would be written for it. In a pool that has been read, this
finds the first entry with these bytes. It passes over entries that are read as the same text and
spell it in more bytes, so it finds an entry exactly if one of those with that text is spelled as
short as can be.
-/

namespace ClassPatch.ConstantPool

open Text Text.ModifiedUtf8

variable {p : ConstantPool} {text : String}

theorem FirstIndexed.isSome_findText?_iff (h : p.FirstIndexed) :
    (p.findText? text).isSome ↔ some (.utf8 (ModifiedUtf8.encode text)) ∈ p.slots := by
  rw [← Option.ne_none_iff_isSome, findText?, ne_eq, h.getElem?_eq_none, not_not]

/-- What stands in a slot of a pool has an index. -/
theorem WellFormed.exists_get? (h : p.WellFormed) {c : Constant} (hc : some c ∈ p.slots) :
    ∃ i, p.get? i = some c := by
  obtain ⟨n, hn⟩ := Array.mem_iff_getElem?.mp hc
  obtain ⟨hlt, -⟩ := Array.getElem?_eq_some_iff.mp hn
  have hindex : (UInt16.ofNat n).toNat = n :=
    UInt16.toNat_ofNat_of_lt' (Nat.lt_of_lt_of_le hlt (Nat.le_succ_of_le h.size_le))
  rw [← hindex] at hn
  exact ⟨UInt16.ofNat n, get?_eq_some.mpr hn⟩

/-- An entry with the text is passed over if it is not what would be written for the text. -/
theorem FirstIndexed.isSome_findText?_iff_exists (h : p.FirstIndexed) (hp : p.WellFormed) :
    (p.findText? text).isSome ↔ ∃ i bytes, p.get? i = some (.utf8 bytes) ∧
      ModifiedUtf8.decode bytes = .ok text ∧ bytes.IsChain Sparing := by
  have hwritten := decode_encode text
  rw [h.isSome_findText?_iff]
  constructor
  · intro hmem
    obtain ⟨i, hi⟩ := hp.exists_get? hmem
    exact ⟨i, _, hi, hwritten, (encode_eq_iff_isChain hwritten).mp rfl⟩
  · rintro ⟨i, bytes, hi, hdecode, hchain⟩
    rw [(encode_eq_iff_isChain hdecode).mpr hchain]
    exact Array.mem_of_getElem? (get?_eq_some.mp hi)

/-- Of the byte strings that are read as a text, one is what would be written for it. It is the
shortest, and the one in which no two neighbours begin a spelling that is longer than it has to be.
Looking up the text in a pool that has been read gives the index of such an entry, if there is
one. -/
theorem written_iff_sparing (text : String) :
    (∀ bytes, ModifiedUtf8.decode bytes = .ok text →
      (ModifiedUtf8.encode text = bytes ↔ bytes.IsChain Sparing) ∧
      (ModifiedUtf8.encode text = bytes ↔
        ∀ other, ModifiedUtf8.decode other = .ok text → bytes.length ≤ other.length)) ∧
    (∀ bytes bytes', ModifiedUtf8.decode bytes = .ok text → ModifiedUtf8.decode bytes' = .ok text →
      bytes.IsChain Sparing → bytes'.IsChain Sparing → bytes = bytes') ∧
    ∀ c p c', read c = .ok p c' →
      (∀ i, p.findText? text = some i → p.text i = .ok text) ∧
      ((p.findText? text).isSome ↔ ∃ i bytes, p.get? i = some (.utf8 bytes) ∧
        ModifiedUtf8.decode bytes = .ok text ∧ bytes.IsChain Sparing) := by
  refine ⟨?_, ?_, ?_⟩
  · intro bytes h
    exact ⟨encode_eq_iff_isChain h, encode_eq_iff_length_le h⟩
  · intro bytes bytes' h h' hchain hchain'
    have heq := (encode_eq_iff_isChain h).mpr hchain
    have heq' := (encode_eq_iff_isChain h').mpr hchain'
    exact heq.symm.trans heq'
  · intro c p c' hread
    have hp := wellFormed_of_read hread
    refine ⟨?_, (firstIndexed_of_read hread).isSome_findText?_iff_exists hp⟩
    intro i hi
    exact text_eq_ok.mpr ⟨_, hp.found hi, decode_encode text⟩

/-- Two entries are read as the same letter. The first of them spells it in two bytes. -/
private def spelledTwice : ConstantPool :=
  ofSlots #[none, some (.utf8 [0xC1, 0x81]), some (.utf8 [0x41])]

theorem written_iff_sparing_spelledTwice :
    ∃ c c', read c = .ok spelledTwice c' ∧ spelledTwice.text 1 = .ok "A" ∧
      (spelledTwice.findText? "A").isSome ∧ ModifiedUtf8.encode "A" = [0x41] ∧
      ModifiedUtf8.encode "A" ≠ [0xC1, 0x81] := by
  have hread : ∃ c', read (Cursor.ofBytes [0, 3, 1, 0, 2, 0xC1, 0x81, 1, 0, 1, 0x41]) =
      .ok spelledTwice c' := ⟨_, by cbv⟩
  obtain ⟨c', hread⟩ := hread
  have hlong : ModifiedUtf8.decode [0xC1, 0x81] = .ok "A" := by cbv
  have hshort : ModifiedUtf8.decode [0x41] = .ok "A" := by cbv
  have hentry : spelledTwice.get? 2 = some (.utf8 [0x41]) := by cbv
  obtain ⟨hwritten, -, hfound⟩ := written_iff_sparing "A"
  refine ⟨_, c', hread, text_eq_ok.mpr ⟨_, by cbv, hlong⟩, ?_, ?_, ?_⟩
  · exact (hfound _ _ _ hread).2.mpr ⟨2, _, hentry, hshort, by decide⟩
  · exact (hwritten _ hshort).1.mpr (by decide)
  · intro heq
    exact absurd ((hwritten _ hlong).1.mp heq) (by decide)

/-- Bytes are read as a letter although something else would be written for it, and in a pool that
holds them alone the letter is not found. -/
theorem not_written_of_decode :
    ¬(∀ bytes text, ModifiedUtf8.decode bytes = .ok text → ModifiedUtf8.encode text = bytes) ∧
    ¬(∀ bytes bytes' text, ModifiedUtf8.decode bytes = .ok text →
      ModifiedUtf8.decode bytes' = .ok text → bytes = bytes') ∧
    ¬(∀ c p c' text, read c = .ok p c' →
      ((p.findText? text).isSome ↔ ∃ i, p.text i = .ok text)) := by
  have hdecode : ModifiedUtf8.decode [0xC1, 0x81] = .ok "A" := by cbv
  have hwritten : ModifiedUtf8.encode "A" = [0x41] := by cbv
  refine ⟨?_, ?_, ?_⟩
  · intro h
    exact absurd (hwritten.symm.trans (h _ _ hdecode)) (by decide)
  · intro h
    exact absurd (h _ _ _ hdecode (decode_encode "A")) (by rw [hwritten]; decide)
  · intro h
    have hread : ∃ p c', read (Cursor.ofBytes [0, 2, 1, 0, 2, 0xC1, 0x81]) = .ok p c' ∧
        p.findText? "A" = none ∧ p.get? 1 = some (.utf8 [0xC1, 0x81]) :=
      ⟨_, _, by cbv, by cbv, by cbv⟩
    obtain ⟨p, c', hread, hnone, hentry⟩ := hread
    have hfound := (h _ _ _ "A" hread).mpr ⟨1, text_eq_ok.mpr ⟨_, hentry, hdecode⟩⟩
    rw [hnone] at hfound
    cases hfound

end ClassPatch.ConstantPool
