import ClassPatch.Proofs.Code.UnguardedLayout

/-!
# Look-ups while instructions are written

The instructions of a layout are written with blanks, and labels are noted on the way: their
offsets, which are read at the index of the event, and these indices. Then the blanks are filled
from the labels. The bytes are those that are written in one go, and whoever looks a label up in the
tables finds its place.
-/

namespace ClassPatch

open PoolM CodeWriter

namespace Layout

variable {layout : Layout} {α : Type} {f : PlacedEvent → α} {table : Std.TreeMap Label α}
    {e : PlacedEvent}

theorem notePlaced_of_label {l : Label} (h : e.event = .label l) :
    notePlaced f table e = table.insert l (f e) := by
  rw [notePlaced, h]

theorem notePlaced_of_instr {i : Instruction Label} (h : e.event = .instr i) :
    notePlaced f table e = table := by
  rw [notePlaced, h]

/-- Two tables that go together still do so when events are noted in both. -/
theorem getElem?_foldl_notePlaced (placed : List PlacedEvent) {places : Places}
    (h : ∀ l : Label, table[l]? = places[l]?.map f) (l : Label) :
    (placed.foldl (notePlaced f) table)[l]? = (placed.foldl (notePlaced id) places)[l]?.map f := by
  induction placed generalizing places table with
  | nil => exact h l
  | cons e placed ih =>
    rw [List.foldl_cons, List.foldl_cons]
    refine ih fun l' => ?_
    cases hevent : e.event with
    | instr i =>
      rw [notePlaced_of_instr hevent, notePlaced_of_instr hevent]
      exact h l'
    | label l₀ =>
      rw [notePlaced_of_label hevent, notePlaced_of_label hevent, Std.TreeMap.getElem?_insert,
        Std.TreeMap.getElem?_insert]
      split
      · rfl
      · exact h l'

theorem labelOffsets_eq (layout : Layout) (l : Label) :
    (labelOffsets layout.placed)[l]? = layout.places[l]?.map (·.offset) :=
  getElem?_foldl_notePlaced layout.placed (fun _ => by simp) l

theorem Resolves.labelOffsets_eq {l : Label} (h : layout.Resolves l) :
    (labelOffsets layout.placed)[l]? = some (layout.offset l) := by
  obtain ⟨offset, hoffset⟩ := h
  obtain ⟨e, he, -⟩ := Except.bind_eq_ok.mp hoffset
  have hplace := find_eq_ok.mp he
  rw [layout.labelOffsets_eq, hplace, offset_of_places hplace]
  rfl

end Layout

namespace Unguarded

/-- The tables that are read while a body is written. -/
structure Tables where
  /-- The offset of every event of the layout, by its index. -/
  offsets : Array Nat
  /-- The state before every event of the layout, by its index. -/
  states : Array (Option FlowState)
  labelOffsets : Std.TreeMap Label Nat
  /-- The index of the event that places a label. -/
  labelIndex : Std.TreeMap Label Nat

/-- The tables of a layout of which no labels have been noted. -/
def Tables.ofLayout (layout : Layout) : Tables where
  offsets := (layout.placed.map (·.offset)).toArray
  states := (layout.placed.map (·.state)).toArray
  labelOffsets := ∅
  labelIndex := ∅

/-- Notes where a label is. -/
def Tables.noteLabel (t : Tables) (l : Label) (index : Nat) : Except Halt Tables := do
  let offset ← demand t.offsets[index]?
  return { t with labelOffsets := t.labelOffsets.insert l offset, labelIndex :=
    t.labelIndex.insert l index }

/-- Appends the event at an index, or notes where it places a label. -/
def emitEvent (sofar : Buffer × Tables) (row : PlacedEvent × Nat) : EncodeM (Buffer × Tables) :=
  match row.1.event with
  | .label l => do return (sofar.1, ← halting (sofar.2.noteLabel l row.2))
  | .instr i => do return (← sofar.1.emit row.1.wide i, sofar.2)

/-- Writes the instructions of a layout. -/
def instructionBytes (layout : Layout) : EncodeM (Bytes × Tables) := do
  let (buffer, t) ← layout.placed.zipIdx.foldlM emitEvent (⟨[], []⟩, .ofLayout layout)
  return (← buffer.resolve t.labelOffsets, t)

/-- The tables are those of the layout, and the labels of the events in `front` have been noted. -/
structure Tables.Note (t : Tables) (layout : Layout) (front : List PlacedEvent) : Prop where
  offsets : t.offsets = (layout.placed.map (·.offset)).toArray
  states : t.states = (layout.placed.map (·.state)).toArray
  labelOffsets : t.labelOffsets = front.foldl (Layout.notePlaced (·.offset)) ∅
  labelIndex : ∀ {l : Label} {e : PlacedEvent},
    (front.foldl (Layout.notePlaced id) ∅ : Layout.Places)[l]? = some e →
      ∃ index, t.labelIndex[l]? = some index ∧ layout.placed[index]? = some e

section

variable {layout : Layout} {t : Tables} {front back : List PlacedEvent} {e : PlacedEvent}
  {b : Buffer} {code : Bytes} {p : ConstantPool}

theorem note_ofLayout (layout : Layout) : (Tables.ofLayout layout).Note layout [] where
  offsets := rfl
  states := rfl
  labelOffsets := rfl
  labelIndex h := by simp at h

/-- The offset of the next event is there. -/
theorem Tables.Note.noteLabel (h : t.Note layout front)
    (hsplit : layout.placed = front ++ e :: back) {l : Label} (hevent : e.event = .label l) :
    ∃ t', t.noteLabel l front.length = .ok t' ∧ t'.Note layout (front ++ [e]) := by
  have hat : layout.placed[front.length]? = some e := by
    rw [hsplit, List.getElem?_append_right (Nat.le_refl _), Nat.sub_self]
    rfl
  have hoffset : t.offsets[front.length]? = some e.offset := by
    rw [h.offsets, List.getElem?_toArray, List.getElem?_map, hat]
    rfl
  refine ⟨{ t with labelOffsets := t.labelOffsets.insert l e.offset
                   labelIndex := t.labelIndex.insert l front.length },
    by rw [Tables.noteLabel, hoffset]; rfl, h.offsets, h.states, ?_, fun {l' e'} he' => ?_⟩
  · rw [h.labelOffsets, List.foldl_append, List.foldl_cons, List.foldl_nil,
      Layout.notePlaced_of_label hevent]
  · rw [List.foldl_append, List.foldl_cons, List.foldl_nil, Layout.notePlaced_of_label hevent,
      Std.TreeMap.getElem?_insert] at he'
    simp only [Std.TreeMap.getElem?_insert]
    split at he'
    · rename_i hl
      obtain rfl := Option.some.inj he'
      exact ⟨front.length, if_pos hl, hat⟩
    · rename_i hl
      obtain ⟨index, hindex, hplaced⟩ := h.labelIndex he'
      exact ⟨index, (if_neg hl).trans hindex, hplaced⟩

/-- An instruction leaves the labels as they are. -/
theorem Tables.Note.instr (h : t.Note layout front) {i : Instruction Label}
    (hevent : e.event = .instr i) : t.Note layout (front ++ [e]) where
  offsets := h.offsets
  states := h.states
  labelOffsets := by
    rw [h.labelOffsets, List.foldl_append, List.foldl_cons, List.foldl_nil,
      Layout.notePlaced_of_instr hevent]
  labelIndex he' := by
    rw [List.foldl_append, List.foldl_cons, List.foldl_nil,
      Layout.notePlaced_of_instr hevent] at he'
    exact h.labelIndex he'

/-- The instructions of a layout can be written in one go, with distances that fit. -/
structure Writable (layout : Layout) (p : ConstantPool) : Prop where
  wellFormed : p.WellFormed
  made : layout.MadeIn p
  agrees : layout.Agrees p
  length_le : layout.length ≤ 65535

/-- The next event is appended as it is written in one go. -/
theorem mirrors_emitEvent (hlayout : Writable layout p)
    (hsplit : layout.placed = front ++ e :: back) (hstart : b.code.length = e.offset)
    (hb : b.Fills (labelOffsets layout.placed) code) (ht : t.Note layout front) (q : ConstantPool) :
    Mirrors (fun (b', t') row => b'.Fills (labelOffsets layout.placed) (code ++ row) ∧
        t'.Note layout (front ++ [e]))
      (emitEvent (b, t) (e, front.length) q) (eventBytes layout.places e q) := by
  have he : e ∈ layout.placed := hsplit ▸ List.mem_append_right _ (List.mem_cons_self ..)
  have hlong : layout.length ≤ 2147483647 := Nat.le_trans hlayout.length_le (by decide)
  cases hevent : e.event with
  | label l =>
    obtain ⟨t', hnoted, ht'⟩ := ht.noteLabel hsplit hevent
    simp only [emitEvent, eventBytes, hevent, hnoted]
    refine .pure ⟨?_, ht'⟩ q
    rwa [List.append_nil]
  | instr i =>
    have hfits : ∀ l ∈ i.targets, layout.Resolves l ∧ e.Fits (layout.offset l - e.offset) := by
      intro l hl
      exact hlayout.agrees.fits hlong e he l (by rwa [hevent])
    have htargets : i.mapTargets layout.places.offsetOf = .ok (i.map layout.offset) :=
      Instruction.mapTargets_eq_map fun l hl => (hfits l hl).1.offsetOf_eq
    have hnear : ∀ kind l, i = .jump kind l → e.wide = false →
        isNear (layout.offset l - b.code.length) = true := by
      rintro kind l rfl hwide
      have hfit := (hfits l (List.mem_singleton_self l)).2
      rw [PlacedEvent.Fits, hevent, hwide] at hfit
      rwa [hstart]
    have hemit := hb.mirrors_emit hnear (fun l hl => (hfits l hl).1.labelOffsets_eq)
      (fun l _ => hstart ▸ hlayout.made.isFarDistance hlong he l) q
    simp only [emitEvent, eventBytes, hevent, htargets]
    rw [← hstart]
    exact hemit.map_left fun b' row hb' => ⟨hb', ht.instr hevent⟩

/-- Events that are appended one by one are written in one go, each at its offset. -/
theorem mirrors_emitEvents (hlayout : Writable layout p) {start stop : Nat}
    (hlaid : Laid start back stop) {q : ConstantPool} (hq : p ≤ q) (hwf : q.WellFormed)
    (hsplit : layout.placed = front ++ back) (hstart : b.code.length = start)
    (hb : b.Fills (labelOffsets layout.placed) code) (ht : t.Note layout front) :
    Mirrors (fun (b', t') rows => b'.Fills (labelOffsets layout.placed) (code ++ rows.flatten) ∧
        t'.Note layout layout.placed)
      ((back.zipIdx front.length).foldlM emitEvent (b, t) q)
      (back.mapM (eventBytes layout.places) q) := by
  induction back generalizing front b t code q start with
  | nil =>
    rw [List.append_nil] at hsplit
    exact .pure ⟨by simpa using hb, hsplit ▸ ht⟩ q
  | cons e back ih =>
    cases hlaid with
    | cons hlaid =>
      rw [List.zipIdx_cons, List.foldlM_cons, List.mapM_cons]
      refine (mirrors_emitEvent hlayout hsplit hstart hb ht q).bind fun {next row q'} hrow hnext =>
        ?_
      obtain ⟨b', t'⟩ := next
      obtain ⟨hb', ht'⟩ := hnext
      have hwf' := (steady_eventBytes e).wellFormed hwf hrow
      have hq' := ConstantPool.le_trans hq ((steady_eventBytes e).le hwf hrow)
      have hlength := (Layout.finds_eventBytes hwf' (hlayout.made.mono hlayout.wellFormed hq')
        (hsplit ▸ List.mem_append_right _ (List.mem_cons_self ..))
        ((steady_eventBytes e).finds hwf hrow)).1
      have hstart' : b'.code.length = e.offset + e.extent.size e.offset e.wide := by
        rw [hb'.length, List.length_append, ← hb.length, hstart, hlength]
      have hindex : front.length + 1 = (front ++ [e]).length := by simp
      rw [hindex]
      refine (ih hlaid hq' hwf' (by simpa using hsplit) hstart' hb' ht').map_right
        fun last rows h => ?_
      obtain ⟨b'', t''⟩ := last
      rwa [List.flatten_cons, ← List.append_assoc]

/-- The instructions of a layout are those that are written in one go. -/
theorem mirrors_instructionBytes (hlayout : Writable layout p) :
    Mirrors (fun (code', t) code => code' = code ∧ t.Note layout layout.placed)
      (instructionBytes layout p) (CodeWriter.instructionBytes layout.places layout p) := by
  have hwritten := mirrors_emitEvents hlayout hlayout.made.laid (ConstantPool.le_refl p)
    hlayout.wellFormed (List.nil_append _).symm rfl (Buffer.fills_empty _) (note_ofLayout layout)
  refine hwritten.bind fun {last rows q} _ h => ?_
  obtain ⟨b, t⟩ := last
  obtain ⟨hb, ht⟩ := h
  have hresolve : b.resolve t.labelOffsets q = .ok rows.flatten q := by
    rw [ht.labelOffsets]
    exact hb.resolve q
  exact .bind_left hresolve (.pure ⟨rfl, ht⟩ q)

end

end Unguarded
end ClassPatch
