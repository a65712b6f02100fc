import ClassPatch.Proofs.Flow.Consistency

/-!
# Paths through events

`Leads` says where control can go from an event, in whatever state, and a path is a list of
positions of which each leads to the next. Code that is put in front of an instruction, and whose
labels nothing else refers to, is entered at its first event only: every path to the instruction
goes through that event.
-/

namespace ClassPatch

/-- Control can go from one position to another: on, to a target, into a handler, or behind the call
of a subroutine from where one returns. -/
inductive Leads (events : List Event) (handlers : List Handler) : Nat → Nat → Prop
  | next {i : Nat} {e : Event} (he : events[i]? = some e) (hterminal : e.isTerminal = false) :
      Leads events handlers i (i + 1)
  | jump {i j : Nat} {e : Event} {l : Label} (he : events[i]? = some e) (hl : l ∈ e.targets)
      (hj : Means events l j) : Leads events handlers i j
  | caught {i j : Nat} {handler : Handler} (hmem : handler ∈ handlers)
      (hcovers : handler.Covers events i) (hj : Means events handler.target j) :
      Leads events handlers i j
  | ret {i j : Nat} {slot : UInt16} {l : Label} (he : events[i]? = some (.instr (.ret slot)))
      (hcall : events[j]? = some (.instr (.jump .jsr l))) : Leads events handlers i (j + 1)

/-- A label behind an instruction means its own position. -/
theorem Means.of_instr {events : List Event} {i : Nat} {ins : Instruction Label} {l : Label}
    (hi : events[i]? = some (.instr ins)) (hl : events[i + 1]? = some (.label l)) :
    Means events l (i + 1) := by
  refine ⟨i + 1, hl, fun k hk => ?_, Nat.le_refl _, fun k hk hlt => absurd hk (Nat.not_le.mpr hlt)⟩
  obtain rfl := Nat.succ.inj hk
  exact ⟨ins, hi⟩

/-- The label is not placed, no event refers to it, and no handler begins there. -/
structure Label.IsUnused (l : Label) (events : List Event) (handlers : List Handler) : Prop where
  placed : l ∉ placedLabels events
  targets : ∀ e ∈ events, l ∉ e.targets
  handlers : ∀ handler ∈ handlers, handler.target ≠ l

/-! ### Code in front of an instruction -/

section Spliced

variable {front code back : List Event} {i : Instruction Label} {handlers : List Handler}
    {a b k : Nat}
  {e : Event} {l : Label}

/-- The position is behind the first event of the code and not behind the instruction. -/
def IsBehindStart (front code : List Event) (k : Nat) : Prop :=
  front.length < k ∧ k ≤ front.length + code.length

/-- What stands at a position is part of the code, or of what was there before. -/
theorem mem_of_getElem?_spliced (h : (front ++ (code ++ .instr i :: back))[k]? = some e) :
    (front.length ≤ k ∧ k < front.length + code.length) ∧ e ∈ code ∨
      ¬(front.length ≤ k ∧ k < front.length + code.length) ∧ e ∈ front ++ .instr i :: back := by
  rw [List.getElem?_append] at h
  split at h
  · exact .inr ⟨by omega, List.mem_append_left _ (List.mem_of_getElem? h)⟩
  · rw [List.getElem?_append] at h
    split at h
    · exact .inl ⟨by omega, List.mem_of_getElem? h⟩
    · exact .inr ⟨by omega, List.mem_append_right _ (List.mem_of_getElem? h)⟩

/-- Labels that the code does not place are not in it. -/
theorem Means.not_isBehindStart (h : Means (front ++ (code ++ .instr i :: back)) l k)
    (hl : l ∉ placedLabels code) : ¬IsBehindStart front code k := by
  rintro ⟨hstart, hstop⟩
  obtain ⟨m, hm, hrow⟩ := h
  have hi :
      (front ++ (code ++ .instr i :: back))[front.length + code.length]? = some (.instr i) := by
    simp
  rcases Nat.lt_trichotomy m (front.length + code.length) with hlt | rfl | hgt
  · have hle := hrow.le
    rw [List.getElem?_append_right (by omega), List.getElem?_append_left (by omega)] at hm
    exact hl (mem_placedLabels.mpr (List.mem_of_getElem? hm))
  · cases hi.symm.trans hm
  · obtain ⟨l', hl'⟩ := hrow.labels _ hstop hgt
    cases hi.symm.trans hl'

/-- Control comes into the code from its events only. -/
theorem Leads.from_code
    (hlabels : ∀ l ∈ placedLabels code, l.IsUnused (front ++ .instr i :: back) handlers)
    (hcalls : ∀ l, .instr (.jump .jsr l) ∉ code)
    (h : Leads (front ++ (code ++ .instr i :: back)) handlers a b)
    (hb : IsBehindStart front code b) : front.length ≤ a ∧ a < front.length + code.length := by
  cases h with
  | next =>
    obtain ⟨hstart, hstop⟩ := hb
    omega
  | jump he hl hj =>
    have hcode := not_imp_not.mp hj.not_isBehindStart hb
    rcases mem_of_getElem?_spliced he with ⟨hinside, -⟩ | ⟨-, hmem⟩
    · exact hinside
    · exact absurd hl ((hlabels _ hcode).targets _ hmem)
  | caught hmem _ hj =>
    have hcode := not_imp_not.mp hj.not_isBehindStart hb
    exact absurd rfl ((hlabels _ hcode).handlers _ hmem)
  | ret _ hcall =>
    obtain ⟨hstart, hstop⟩ := hb
    rcases mem_of_getElem?_spliced hcall with ⟨-, hmem⟩ | ⟨houtside, -⟩
    · exact absurd hmem (hcalls _)
    · omega

/-- A path that begins in front of the code or behind the instruction, and comes behind the start of
the code, goes through the start. -/
theorem mem_of_isChain {path : List Nat}
    (hlabels : ∀ l ∈ placedLabels code, l.IsUnused (front ++ .instr i :: back) handlers)
    (hcalls : ∀ l, .instr (.jump .jsr l) ∉ code)
    (hpath : path.IsChain (Leads (front ++ (code ++ .instr i :: back)) handlers))
    (hstart : ∀ a ∈ path.head?, ¬IsBehindStart front code a) (hb : IsBehindStart front code b)
    (hmem : b ∈ path) : front.length ∈ path := by
  induction path with
  | nil => cases hmem
  | cons a path ih =>
    have ha : ¬IsBehindStart front code a := hstart a rfl
    rcases List.mem_cons.mp hmem with rfl | hmem
    · exact absurd hb ha
    · cases path with
      | nil => cases hmem
      | cons c path =>
        obtain ⟨hleads, hpath⟩ := List.isChain_cons_cons.mp hpath
        by_cases hc : IsBehindStart front code c
        · have hinside := hleads.from_code hlabels hcalls hc
          obtain rfl : a = front.length := by
            simp only [IsBehindStart] at ha
            omega
          exact List.mem_cons_self ..
        · refine List.mem_cons_of_mem _ (ih hpath (fun d hd => ?_) hmem)
          obtain rfl := Option.some.inj hd
          exact hc

end Spliced
end ClassPatch
