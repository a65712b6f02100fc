import ClassPatch.Proofs.Code.Rounds

/-!
# Layouts that settle alike

Labels take no room, so where events come to lie is decided by their instructions and by how many of
them stand in front of each label. Two lists of measured events that have the same instructions but
for the names of labels settle alike. A bridge is near from the start: what is known to be one on
one side only does not tell the sides apart.
-/

namespace ClassPatch

/-- Renames the labels of an event. -/
def Event.map (f : Label → Label) : Event → Event
  | label l => label (f l)
  | instr i => instr (i.map f)

theorem Event.targets_map (f : Label → Label) (e : Event) :
    (e.map f).targets = e.targets.map f := by
  cases e with
  | label l => rfl
  | instr i => exact Instruction.targets_map f i

namespace Extent

/-- Renames the target of a jump. -/
def map (f : Label → Label) : Extent → Extent
  | fixed size => fixed size
  | jump kind target => jump kind (f target)
  | padded size => padded size

@[simp] theorem size_map (f : Label → Label) (extent : Extent) (offset : Nat) (wide : Bool) :
    (extent.map f).size offset wide = extent.size offset wide := by
  cases extent <;> rfl

/-- An event is a jump exactly if it has been measured as one. -/
theorem eq_jump_iff {e : Event} {extent : Extent} {p : ConstantPool}
    (h : PoolM.Finds (ofEvent e) p extent) (kind : Jump) (target : Label) :
    e = .instr (.jump kind target) ↔ extent = .jump kind target := by
  cases e with
  | label l => simp [← PoolM.finds_pure.mp h]
  | instr i =>
    cases i with
    | jump kind' target' =>
      obtain hjump : Extent.jump kind' target' = extent := PoolM.finds_pure.mp h
      rw [← hjump]
      simp
    | push value =>
      obtain ⟨bytes, p', -, hpure⟩ := EStateM.bind_eq_ok.mp h
      simp [← (EStateM.pure_eq_ok.mp hpure).1]
    | invoke kind' => cases kind' <;> simp [← PoolM.finds_pure.mp h]
    | _ => simp [← PoolM.finds_pure.mp h]

end Extent

/-! ### Places of instructions -/

/-- An event and another one that is the same but for the names of labels. -/
structure SizedEvent.Matches (f : Label → Label) (a c : SizedEvent) : Prop where
  event : c.event = a.event.map f
  extent : c.extent = a.extent.map f
  wide : c.wide = a.wide

/-- Placed events that are the same but for the names of labels, at the same place. -/
structure PlacedEvent.Matches (f : Label → Label) (a c : PlacedEvent) : Prop where
  sized : a.toSizedEvent.Matches f c.toSizedEvent
  offset : c.offset = a.offset

/-- Labels take no room. -/
def Flat (events : List SizedEvent) : Prop :=
  ∀ e ∈ events, e.event.isLabel = true → e.extent = .fixed 0 ∧ e.wide = false

/-- The instructions among placed events. -/
def placedInstrs (placed : List PlacedEvent) : List PlacedEvent :=
  placed.filter fun e => !e.event.isLabel

/-- The instructions among measured events. -/
def sizedInstrs (events : List SizedEvent) : List SizedEvent :=
  events.filter fun e => !e.event.isLabel

section Placed

variable {f : Label → Label} {placed placed' : List PlacedEvent} {start stop stop' : Nat}

theorem map_placedInstrs (placed : List PlacedEvent) :
    (placedInstrs placed).map (·.toSizedEvent) = sizedInstrs (placed.map (·.toSizedEvent)) := by
  rw [sizedInstrs, List.filter_map]
  rfl

theorem length_placedInstrs (placed : List PlacedEvent) :
    (placedInstrs placed).length = (instructions (placed.map (·.event))).length := by
  induction placed with
  | nil => rfl
  | cons e placed ih =>
    cases hevent : e.event with
    | label l => simpa [placedInstrs, hevent, Event.isLabel] using ih
    | instr i => simpa [placedInstrs, hevent, Event.isLabel] using ih

theorem Flat.of_append_left {events events' : List SizedEvent} (h : Flat (events ++ events')) :
    Flat events := fun e he => h e (List.mem_append_left _ he)

/-- Without its labels a placement has no gaps either. -/
theorem Laid.placedInstrs (h : Laid start placed stop)
    (hflat : Flat (placed.map (·.toSizedEvent))) : Laid start (placedInstrs placed) stop := by
  induction h with
  | nil start => exact .nil start
  | @cons e placed stop h ih =>
    rw [List.map_cons] at hflat
    have ih := ih fun e' he' => hflat e' (List.mem_cons_of_mem _ he')
    cases hevent : e.event with
    | label l =>
      have hzero :=
        (hflat e.toSizedEvent (List.mem_cons_self ..) (by simp [hevent, Event.isLabel])).1
      rw [show e.extent = .fixed 0 from hzero] at ih
      simpa [ClassPatch.placedInstrs, hevent, Event.isLabel, Extent.size] using ih
    | instr i =>
      have hkept : ClassPatch.placedInstrs (e :: placed) = e :: ClassPatch.placedInstrs placed := by
        simp [ClassPatch.placedInstrs, hevent, Event.isLabel]
      rw [hkept]
      exact .cons ih

/-- What matches is placed alike. -/
theorem Laid.matches (h : Laid start placed stop) (h' : Laid start placed' stop')
    (hmatch : List.Forall₂ (fun a c => a.toSizedEvent.Matches f c.toSizedEvent) placed placed') :
    stop' = stop ∧ List.Forall₂ (PlacedEvent.Matches f) placed placed' := by
  have huncons {start stop : Nat} {e : PlacedEvent} {placed : List PlacedEvent}
      (h : Laid start (e :: placed) stop) :
      e.offset = start ∧ Laid (e.offset + e.extent.size e.offset e.wide) placed stop := by
    cases h with
    | cons h => exact ⟨rfl, h⟩
  induction hmatch generalizing start with
  | nil =>
    cases h
    cases h'
    exact ⟨rfl, .nil⟩
  | @cons a c placed placed' hone hrest ih =>
    obtain ⟨hstart, h⟩ := huncons h
    obtain ⟨hstart', h'⟩ := huncons h'
    have hoffset : c.offset = a.offset := hstart'.trans hstart.symm
    rw [hone.extent, hone.wide, Extent.size_map, hoffset] at h'
    obtain ⟨hstop, hrows⟩ := ih h h'
    exact ⟨hstop, .cons ⟨hone, hoffset⟩ hrows⟩

/-- In front of a label that is placed once lie as many instructions as it stands behind. -/
theorem Laid.take_landing (h : Laid start placed stop) (hflat : Flat (placed.map (·.toSizedEvent)))
    (hnodup : (placedLabels (placed.map (·.event))).Nodup) {e : PlacedEvent} (he : e ∈ placed)
    {l : Label} (hevent : e.event = .label l) :
    Laid start ((ClassPatch.placedInstrs placed).take (landing (placed.map (·.event)) l))
      e.offset := by
  obtain ⟨before, after, rfl⟩ := List.append_of_mem he
  have hat : ((before ++ e :: after).map (·.event))[before.length]? = some (.label l) := by
    simp [hevent]
  have hlanding : landing ((before ++ e :: after).map (·.event)) l =
      (ClassPatch.placedInstrs before).length := by
    rw [landing_at hnodup hat, numberAt, length_placedInstrs, List.map_append,
      List.take_left' (by simp)]
  have hsplit : ClassPatch.placedInstrs (before ++ e :: after) =
      ClassPatch.placedInstrs before ++ ClassPatch.placedInstrs (e :: after) :=
    List.filter_append ..
  obtain ⟨middle, hbefore, hafter⟩ := h.of_append
  obtain rfl : middle = e.offset := by
    cases hafter
    rfl
  rw [List.map_append] at hflat
  rw [hlanding, hsplit, List.take_left' rfl]
  exact hbefore.placedInstrs hflat.of_append_left

/-- In front of where an instruction begins or the last one ends lie the instructions that begin in
front of there. -/
theorem Laid.take_boundary (h : Laid start placed stop)
    (hpos : ∀ e ∈ placed, 0 < e.extent.size e.offset e.wide) {offset : Nat}
    (hoffset : offset = stop ∨ offset ∈ placed.map (·.offset)) :
    Laid start (placed.take (placed.countP (·.offset < offset))) offset := by
  induction h with
  | nil start =>
    obtain rfl : offset = start := by simpa using hoffset
    exact .nil _
  | @cons e placed stop h ih =>
    simp only [List.mem_cons, forall_eq_or_imp] at hpos
    have hbehind : ∀ e' ∈ placed, e.offset < e'.offset := fun e' he' => by
      have := h.start_le e' he'
      omega
    have hlt : e.offset < stop := by
      have := h.le
      omega
    by_cases heq : offset = e.offset
    · subst heq
      have hnone : (e :: placed).countP (·.offset < e.offset) = 0 := by
        simp only [List.countP_eq_zero, List.mem_cons, forall_eq_or_imp]
        exact ⟨by simp, fun e' he' => by simpa using Nat.le_of_lt (hbehind e' he')⟩
      rw [hnone]
      exact .nil _
    · have hoffset' : offset = stop ∨ offset ∈ placed.map (·.offset) := by simpa [heq] using hoffset
      have hfront : e.offset < offset := by
        rcases hoffset' with rfl | hmem
        · exact hlt
        · obtain ⟨e', he', rfl⟩ := List.mem_map.mp hmem
          exact hbehind e' he'
      rw [List.countP_cons_of_pos (by simpa using hfront), List.take_succ_cons]
      exact .cons (ih hpos.2 hoffset')

/-- Where as many matching instructions lie in front, the offset is the same. -/
theorem Laid.eq_of_matches {n : Nat} {offset offset' : Nat}
    (h : Laid start (placed.take n) offset) (h' : Laid start (placed'.take n) offset')
    (hmatch : List.Forall₂ (fun a c => a.toSizedEvent.Matches f c.toSizedEvent) placed placed') :
    offset' = offset :=
  (h.matches h' (List.forall₂_take n hmatch)).1

end Placed

/-! ### Offsets of labels -/

/-- The offset of a label that is placed once is that of its place. -/
theorem labelOffsets_of_mem {placed : List PlacedEvent}
    (hnodup : (placedLabels (placed.map (·.event))).Nodup) {e : PlacedEvent} (he : e ∈ placed)
    {l : Label} (hevent : e.event = .label l) : (labelOffsets placed)[l]? = some e.offset :=
  Layout.foldl_notePlaced_of_mem hnodup he hevent

/-! ### Growing -/

namespace PlacedEvent

variable {offsets : Std.TreeMap Label Nat} {e : PlacedEvent}

@[simp] theorem event_grow : (e.grow offsets).event = e.event := by
  unfold grow
  split <;> rfl

@[simp] theorem extent_grow : (e.grow offsets).extent = e.extent := by
  unfold grow
  split <;> rfl

theorem wide_grow_of_wide (h : e.wide = true) : (e.grow offsets).wide = true := by
  unfold grow
  split <;> simp [h]

/-- Only jumps grow. -/
theorem wide_grow_of_extent (h : ∀ kind target, e.extent ≠ .jump kind target) :
    (e.grow offsets).wide = e.wide := by
  have hovershoots : e.overshoots offsets = false := by
    unfold overshoots
    split
    · rename_i kind target heq
      exact absurd heq (h kind target)
    · rfl
  unfold grow
  split <;> simp [hovershoots]

end PlacedEvent

/-- Growing leaves no more events narrow. -/
theorem narrowCount_grow_le (offsets : Std.TreeMap Label Nat) (placed : List PlacedEvent) :
    narrowCount (placed.map (·.grow offsets)) ≤ narrowCount (placed.map (·.toSizedEvent)) := by
  simp only [narrowCount, List.countP_map]
  refine List.countP_mono_left fun e _ hnarrow => ?_
  cases hwide : e.wide with
  | false => simp [hwide]
  | true => simp [PlacedEvent.wide_grow_of_wide hwide] at hnarrow

/-- Growing leaves fewer events narrow exactly if one has grown. -/
theorem narrowCount_grow_lt_iff (offsets : Std.TreeMap Label Nat) (placed : List PlacedEvent) :
    narrowCount (placed.map (·.grow offsets)) < narrowCount (placed.map (·.toSizedEvent)) ↔
      ∃ e ∈ placed, e.wide = false ∧ (e.grow offsets).wide = true := by
  constructor
  · intro hlt
    by_contra hnone
    refine Nat.ne_of_lt hlt ?_
    simp only [narrowCount, List.countP_map]
    refine List.countP_congr fun e he => ?_
    cases hwide : e.wide with
    | false =>
      have hgrown : (e.grow offsets).wide = false := by
        by_contra hgrown
        exact hnone ⟨e, he, hwide, by simpa using hgrown⟩
      simp [hwide, hgrown]
    | true => simp [hwide, PlacedEvent.wide_grow_of_wide hwide]
  · rintro ⟨e, he, hnarrow, hgrown⟩
    obtain ⟨before, after, rfl⟩ := List.append_of_mem he
    have hfront := narrowCount_grow_le offsets before
    have hback := narrowCount_grow_le offsets after
    unfold narrowCount at hfront hback ⊢
    rw [List.map_append, List.map_append, List.countP_append, List.countP_append, List.map_cons,
      List.map_cons, List.countP_cons, List.countP_cons, hnarrow, hgrown]
    simp only [Bool.not_true, Bool.not_false, Bool.false_eq_true, if_true, if_false]
    omega

/-! ### Settling -/

/-- Every bridge stands over a jump and is there to pass it. -/
def Bridged (events : List LayoutEvent) : Prop :=
  ∀ before e rest, events = before ++ e :: rest → e.isBridge = true → e.event.isLabel = false →
    ∃ c l l' rest', e.event = .instr (.jump (.branch c) l') ∧
      rest = ⟨.instr (.jump .goto l), false⟩ :: ⟨.label l', false⟩ :: rest'

/-- What has been lowered has its bridges where they belong. -/
theorem Lowers.bridged {live far : Nat → Prop} {n : Nat} {events : List Event} {widths : List Nat}
    {lowered : List LayoutEvent} (h : Lowers live far n events widths lowered) :
    Bridged lowered := by
  have hskip {first : LayoutEvent} {lowered : List LayoutEvent}
      (hfirst : first.isBridge = true → first.event.isLabel = true) (h : Bridged lowered) :
      Bridged (first :: lowered) := by
    intro before e rest hsplit hbridge hlabel
    cases before with
    | nil =>
      obtain ⟨rfl, rfl⟩ := List.cons.inj hsplit
      exact absurd (hfirst hbridge) (by simp [hlabel])
    | cons first' before =>
      exact h before e rest (List.cons.inj hsplit).2 hbridge hlabel
  induction h with
  | nil =>
    intro before e rest hsplit
    simp at hsplit
  | label rest ih => exact hskip (fun _ => rfl) ih
  | drop h rest ih => exact ih
  | keep h rest ih => exact hskip nofun ih
  | @bridge n c l l' events widths lowered h hfar rest ih =>
    have hbehind : Bridged (⟨.instr (.jump .goto l), false⟩ :: ⟨.label l', false⟩ :: lowered) :=
      hskip nofun (hskip nofun ih)
    intro before e rest hsplit hbridge hlabel
    cases before with
    | nil =>
      obtain ⟨rfl, rfl⟩ := List.cons.inj hsplit
      exact ⟨_, l, l', lowered, rfl, rfl⟩
    | cons first before => exact hbehind before e rest (List.cons.inj hsplit).2 hbridge hlabel

/-- Measured events place their labels once, and their bridges can be passed. -/
structure Regular (events : List SizedEvent) : Prop where
  nodup : (placedLabels (events.map (·.event))).Nodup
  jumps : ∀ e ∈ events, ∀ kind target,
    e.event = .instr (.jump kind target) ↔ e.extent = .jump kind target
  bridged : Bridged (events.map (·.toLayoutEvent))

theorem map_event_place (events : List SizedEvent) :
    (place events).1.map (·.event) = events.map (·.event) := by
  have h := congrArg (List.map (·.event)) (place_spec events).1
  rwa [List.map_map] at h

theorem mem_of_place {events : List SizedEvent} {e : PlacedEvent} (he : e ∈ (place events).1) :
    e.toSizedEvent ∈ events := by
  rw [← (place_spec events).1]
  exact List.mem_map_of_mem he

/-- Growing does not change which events there are. -/
theorem map_event_grow (events : List SizedEvent) (offsets : Std.TreeMap Label Nat) :
    ((place events).1.map (·.grow offsets)).map (·.event) = events.map (·.event) := by
  rw [← map_event_place events, List.map_map]
  exact List.map_congr_left fun e _ => PlacedEvent.event_grow

theorem map_toLayoutEvent_place (events : List SizedEvent) :
    (place events).1.map (·.toLayoutEvent) = events.map (·.toLayoutEvent) := by
  have h := congrArg (List.map (·.toLayoutEvent)) (place_spec events).1
  rwa [List.map_map] at h

theorem map_toLayoutEvent_grow (events : List SizedEvent) (offsets : Std.TreeMap Label Nat) :
    ((place events).1.map (·.grow offsets)).map (·.toLayoutEvent) =
      events.map (·.toLayoutEvent) := by
  rw [← map_toLayoutEvent_place events, List.map_map]
  refine List.map_congr_left fun e _ => ?_
  simp only [Function.comp_apply]
  unfold PlacedEvent.grow
  split <;> rfl

namespace Regular

variable {events : List SizedEvent}

/-- A bridge reaches its target. -/
theorem overshoots_bridge (h : Regular events) {a : PlacedEvent} (ha : a ∈ (place events).1)
    (hbridge : a.isBridge = true) (hevent : a.event.isLabel = false) :
    a.overshoots (labelOffsets (place events).1) = false := by
  obtain ⟨hsized, hlaid⟩ := place_spec events
  have hnodup := h.nodup
  rw [← map_event_place] at hnodup
  obtain ⟨before, rest, hsplit⟩ := List.append_of_mem ha
  have hevents : events.map (·.toLayoutEvent) = before.map (·.toLayoutEvent) ++
      a.toLayoutEvent :: rest.map (·.toLayoutEvent) := by
    rw [← hsized, List.map_map, hsplit, List.map_append, List.map_cons]
    rfl
  obtain ⟨c, l, l', rest', hbranch, hrest⟩ := h.bridged _ _ _ hevents hbridge hevent
  obtain ⟨e₁, rest₁, rfl, hgoto, hrest⟩ := List.map_eq_cons_iff.mp hrest
  obtain ⟨e₂, rest₂, rfl, hlabel, -⟩ := List.map_eq_cons_iff.mp hrest
  have hmem {e : PlacedEvent} (he : e ∈ [e₁, e₂]) : e ∈ (place events).1 := by
    rw [hsplit]
    simp only [List.mem_cons, List.not_mem_nil, or_false] at he
    rcases he with rfl | rfl <;> simp
  have hextent := (h.jumps _ (mem_of_place ha) _ _).mp hbranch
  have hextent₁ := (h.jumps _ (mem_of_place (hmem (e := e₁) (by simp))) .goto l).mp (by rw [hgoto])
  have hlabel : e₂.event = .label l' := by rw [hlabel]
  have hoffset := labelOffsets_of_mem hnodup (hmem (e := e₂) (by simp)) hlabel
  -- The jump under the bridge takes five bytes at most.
  rw [hsplit] at hlaid
  obtain ⟨middle, -, hlaid⟩ := hlaid.of_append
  have hnear : isNear (e₂.offset - a.offset) = true := by
    cases hlaid with
    | cons hlaid =>
      generalize hstart : a.offset + a.extent.size a.offset a.wide = start at hlaid
      cases hlaid with
      | cons hlaid =>
        generalize hstart₁ : e₁.offset + e₁.extent.size e₁.offset e₁.wide = start₁ at hlaid
        cases hlaid with
        | cons hlaid =>
          have hsize {e : PlacedEvent} {kind : Jump} {target : Label}
              (hextent : e.extent = .jump kind target) :
              3 ≤ e.extent.size e.offset e.wide ∧ e.extent.size e.offset e.wide ≤ 5 := by
            rw [hextent, Extent.size]
            split <;> omega
          have := hsize hextent
          have := hsize hextent₁
          simp only [isNear, Bool.and_eq_true, decide_eq_true_eq]
          omega
  unfold PlacedEvent.overshoots
  rw [hextent]
  dsimp only
  rw [hoffset]
  simp [hnear]

/-- What has grown is as regular as before. -/
theorem grown (h : Regular events) (offsets : Std.TreeMap Label Nat) :
    Regular ((place events).1.map (·.grow offsets)) := by
  refine ⟨?_, fun e he => ?_, ?_⟩
  · rw [map_event_grow]
    exact h.nodup
  · obtain ⟨e', he', rfl⟩ := List.mem_map.mp he
    rw [PlacedEvent.event_grow, PlacedEvent.extent_grow]
    exact h.jumps _ (mem_of_place he')
  · rw [map_toLayoutEvent_grow]
    exact h.bridged

end Regular

/-- Two lists of measured events have the same instructions but for the names of labels, and labels
that correspond stand for the same instruction. Bridges are known on the first side only. -/
structure Alike (f : Label → Label) (events events' : List SizedEvent) : Prop
    extends Regular events where
  instrs : List.Forall₂ (SizedEvent.Matches f) (sizedInstrs events) (sizedInstrs events')
  flat : Flat events
  flat' : Flat events'
  nodup' : (placedLabels (events'.map (·.event))).Nodup
  lands : ∀ e ∈ events, ∀ kind target, e.extent = .jump kind target →
    target ∈ placedLabels (events.map (·.event)) ∧
      f target ∈ placedLabels (events'.map (·.event)) ∧
      landing (events'.map (·.event)) (f target) = landing (events.map (·.event)) target

namespace Alike

variable {f : Label → Label} {events events' : List SizedEvent}

variable (h : Alike f events events')
include h

/-- What is alike is placed alike. -/
theorem placed : (place events').2 = (place events).2 ∧
    List.Forall₂ (PlacedEvent.Matches f) (placedInstrs (place events).1)
      (placedInstrs (place events').1) := by
  obtain ⟨hsized, hlaid⟩ := place_spec events
  obtain ⟨hsized', hlaid'⟩ := place_spec events'
  refine (hlaid.placedInstrs (by rw [hsized]; exact h.flat)).matches
    (hlaid'.placedInstrs (by rw [hsized']; exact h.flat')) ?_
  have hinstrs := h.instrs
  rw [← hsized, ← hsized', ← map_placedInstrs, ← map_placedInstrs, List.forall₂_map_left_iff,
    List.forall₂_map_right_iff] at hinstrs
  exact hinstrs

/-- Instructions that correspond reach their targets alike. -/
theorem overshoots_eq {a c : PlacedEvent} (ha : a ∈ (place events).1)
    (hmatch : a.Matches f c) : c.overshoots (labelOffsets (place events').1) =
      a.overshoots (labelOffsets (place events).1) := by
  unfold PlacedEvent.overshoots
  rw [hmatch.sized.extent]
  cases hextent : a.extent with
  | fixed size => rfl
  | padded size => rfl
  | jump kind target =>
    obtain ⟨hplaced, hplaced', hlanding⟩ := h.lands _ (mem_of_place ha) kind target hextent
    have hnodup := h.nodup
    have hnodup' := h.nodup'
    obtain ⟨hsized, hlaid⟩ := place_spec events
    obtain ⟨hsized', hlaid'⟩ := place_spec events'
    rw [← map_event_place] at hplaced hplaced' hnodup hnodup'
    rw [← map_event_place events, ← map_event_place events'] at hlanding
    obtain ⟨e, he, hevent⟩ := List.mem_map.mp (mem_placedLabels.mp hplaced)
    obtain ⟨e', he', hevent'⟩ := List.mem_map.mp (mem_placedLabels.mp hplaced')
    have hfront := hlaid.take_landing (by rw [hsized]; exact h.flat) hnodup he hevent
    have hfront' := hlaid'.take_landing (by rw [hsized']; exact h.flat') hnodup' he' hevent'
    rw [hlanding] at hfront'
    have hoffset : e'.offset = e.offset :=
      hfront.eq_of_matches hfront' (h.placed.2.imp fun _ _ hmatch => hmatch.sized)
    simp only [Extent.map]
    rw [labelOffsets_of_mem hnodup he hevent, labelOffsets_of_mem hnodup' he' hevent', hoffset,
      hmatch.offset, hmatch.sized.wide]

/-- If nothing is far on the first side, nothing is on the second one. -/
theorem not_isFar (hfar : ∀ e ∈ (place events).1,
    e.isFar (labelOffsets (place events).1) = false) :
    ∀ e ∈ (place events').1,
      e.isFar (labelOffsets (place events').1) = false := by
  intro c hc
  by_contra hcfar
  obtain ⟨hloose, hover⟩ := Bool.and_eq_true_iff.mp (Bool.not_eq_false _ ▸ hcfar)
  have hlabel : c.event.isLabel = false := by
    cases hevent : c.event with
    | label l => simp [LayoutEvent.isLoose, hevent] at hloose
    | instr i => rfl
  have hinstr : c ∈ placedInstrs (place events').1 :=
    List.mem_filter.mpr ⟨hc, by simp [hlabel]⟩
  obtain ⟨a, ha, hmatch⟩ := h.placed.2.exists_left hinstr
  obtain ⟨ha, halabel⟩ := List.mem_filter.mp ha
  rw [h.overshoots_eq ha hmatch] at hover
  cases hbridge : a.isBridge with
  | true =>
    have hnear := h.overshoots_bridge ha hbridge (by simpa using halabel)
    exact absurd (hover.symm.trans hnear) (by decide)
  | false =>
    have haloose : a.isLoose = true := by
      have hevent := hmatch.sized.event
      unfold LayoutEvent.isLoose at hloose ⊢
      rw [hevent] at hloose
      cases haevent : a.event with
      | label l => simp [haevent, Event.map] at hloose
      | instr i =>
        rw [haevent] at hloose
        cases i with
        | jump kind target =>
          cases kind with
          | branch c => simp [hbridge]
          | goto | jsr => simp [Event.map, Instruction.map] at hloose
        | _ => simp [Event.map, Instruction.map] at hloose
    have hnot := hfar a ha
    rw [PlacedEvent.isFar, haloose, hover] at hnot
    exact absurd hnot (by decide)

/-- What corresponds grows alike. -/
theorem matches_grow {a c : PlacedEvent} (ha : a ∈ (place events).1)
    (hmatch : a.Matches f c) :
    (a.grow (labelOffsets (place events).1)).Matches f
      (c.grow (labelOffsets (place events').1)) := by
  refine ⟨?_, ?_, ?_⟩
  · rw [PlacedEvent.event_grow, PlacedEvent.event_grow, hmatch.sized.event]
  · rw [PlacedEvent.extent_grow, PlacedEvent.extent_grow, hmatch.sized.extent]
  · have hover := h.overshoots_eq ha hmatch
    unfold PlacedEvent.grow
    rw [hmatch.sized.extent, hover]
    cases hextent : a.extent with
    | jump kind target => cases kind <;> simp [Extent.map, hmatch.sized.wide]
    | _ => simp [Extent.map, hmatch.sized.wide]

/-- What is alike is alike when it has grown. -/
theorem grown : Alike f
    ((place events).1.map (·.grow (labelOffsets (place events).1)))
    ((place events').1.map (·.grow (labelOffsets (place events').1))) := by
  have hflat {events : List SizedEvent} (hflat : Flat events) (offsets : Std.TreeMap Label Nat) :
      Flat ((place events).1.map (·.grow offsets)) := by
    intro e he hlabel
    obtain ⟨e', he', rfl⟩ := List.mem_map.mp he
    rw [PlacedEvent.event_grow] at hlabel
    obtain ⟨hextent, hwide⟩ := hflat _ (mem_of_place he') hlabel
    rw [PlacedEvent.extent_grow,
      PlacedEvent.wide_grow_of_extent fun kind target => by simp [hextent]]
    exact ⟨hextent, hwide⟩
  refine ⟨h.toRegular.grown _, ?_, hflat h.flat _, hflat h.flat' _, ?_,
    fun e he kind target hjump => ?_⟩
  · have hinstrs (placed : List PlacedEvent) (offsets : Std.TreeMap Label Nat) :
        sizedInstrs (placed.map (·.grow offsets)) = (placedInstrs placed).map (·.grow offsets) := by
      rw [sizedInstrs, List.filter_map, placedInstrs]
      congr 1
      exact List.filter_congr fun e _ => by simp
    rw [hinstrs, hinstrs, List.forall₂_map_left_iff, List.forall₂_map_right_iff]
    exact h.placed.2.imp_of_mem fun a ha c _ hmatch =>
      h.matches_grow (List.mem_of_mem_filter ha) hmatch
  · rw [map_event_grow]
    exact h.nodup'
  · obtain ⟨e', he', rfl⟩ := List.mem_map.mp he
    rw [PlacedEvent.extent_grow] at hjump
    rw [map_event_grow, map_event_grow]
    exact h.lands _ (mem_of_place he') kind target hjump

/-- Growing makes something wide on the one side if it does on the other. -/
theorem narrowCount_lt_iff :
    narrowCount ((place events').1.map
        (·.grow (labelOffsets (place events').1))) < narrowCount events' ↔
      narrowCount ((place events).1.map
        (·.grow (labelOffsets (place events).1))) < narrowCount events := by
  have hgrown {events : List SizedEvent} (hflat : Flat events) :
      narrowCount ((place events).1.map
        (·.grow (labelOffsets (place events).1))) < narrowCount events ↔
      ∃ e ∈ placedInstrs (place events).1, e.wide = false ∧
        (e.grow (labelOffsets (place events).1)).wide = true := by
    have hiff := narrowCount_grow_lt_iff (labelOffsets (place events).1)
      (place events).1
    rw [(place_spec events).1] at hiff
    refine hiff.trans (exists_congr fun e => ?_)
    rw [placedInstrs, List.mem_filter, and_assoc]
    refine and_congr_right fun he => ⟨fun hgrows => ⟨?_, hgrows⟩, fun hgrows => hgrows.2⟩
    -- a label does not grow
    cases hlabel : e.event.isLabel with
    | false => rfl
    | true =>
      have hextent := (hflat _ (mem_of_place he) hlabel).1
      rw [PlacedEvent.wide_grow_of_extent fun kind target => by simp [hextent]] at hgrows
      exact absurd (hgrows.1.symm.trans hgrows.2) (by decide)
  rw [hgrown h.flat, hgrown h.flat']
  have hmatch := h.placed.2
  constructor
  · rintro ⟨c, hc, hnarrow, hgrows⟩
    obtain ⟨a, ha, hone⟩ := hmatch.exists_left hc
    have hgrown := (h.matches_grow (List.mem_of_mem_filter ha) hone).wide
    exact ⟨a, ha, hone.sized.wide.symm.trans hnarrow, hgrown.symm.trans hgrows⟩
  · rintro ⟨a, ha, hnarrow, hgrows⟩
    obtain ⟨c, hc, hone⟩ := hmatch.exists_right ha
    have hgrown := (h.matches_grow (List.mem_of_mem_filter ha) hone).wide
    exact ⟨c, hc, hone.sized.wide.trans hnarrow, hgrown.trans hgrows⟩

end Alike

/-- What is alike settles alike, if nothing is far in the end. -/
theorem Alike.settled {f : Label → Label} {events events' : List SizedEvent}
    (h : Alike f events events') (hfar : ∀ e ∈ (settle events).1,
      e.isFar (labelOffsets (settle events).1) = false) :
    (settle events').2 = (settle events).2 ∧
      List.Forall₂ (PlacedEvent.Matches f) (placedInstrs (settle events).1)
        (placedInstrs (settle events').1) ∧
      ∀ e ∈ (settle events').1,
        e.isFar (labelOffsets (settle events').1) = false := by
  fun_induction settle events generalizing events' with
  | case1 events placed offsets grown hgrows =>
    rename_i ih
    obtain ⟨hnear, hlt⟩ := Bool.and_eq_true_iff.mp hgrows
    have hnone : ∀ e ∈ placed.1, e.isFar offsets = false := by simpa using hnear
    have hgrows' : (!(place events').1.any (·.isFar (labelOffsets (place events').1)) &&
        narrowCount ((place events').1.map (·.grow (labelOffsets (place events').1))) <
          narrowCount events') = true :=
      Bool.and_eq_true_iff.mpr ⟨by simpa using h.not_isFar hnone,
        decide_eq_true (h.narrowCount_lt_iff.mpr (of_decide_eq_true hlt))⟩
    rw [settle.eq_1 events', if_pos hgrows']
    exact ih h.grown hfar
  | case2 events placed offsets grown =>
    rename_i hdone
    have hdone' : ¬(!(place events').1.any (·.isFar (labelOffsets (place events').1)) &&
        narrowCount ((place events').1.map (·.grow (labelOffsets (place events').1))) <
          narrowCount events') = true := by
      refine fun hboth => hdone (Bool.and_eq_true_iff.mpr ⟨by simpa using hfar, ?_⟩)
      exact decide_eq_true
        (h.narrowCount_lt_iff.mp (of_decide_eq_true (Bool.and_eq_true_iff.mp hboth).2))
    rw [settle.eq_1 events', if_neg hdone']
    exact ⟨h.placed.1, h.placed.2, h.not_isFar hfar⟩

end ClassPatch
