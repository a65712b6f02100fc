import ClassPatch.Code.Frame

/-!
# Flow states

A flow state holds the types of the locals by slot and of the stack by word, the top word first. A
wide value is its type with `top` behind it among the locals and above it on the stack.

Where control flows join, states are merged: equal types stay, references meet in the root class,
and all else becomes `top`, which the stack does not allow. Merging only ever moves a type down in
`VerificationType.rank`, so a state changes finitely often.
-/

namespace ClassPatch

namespace VerificationType

/-- The type of a value that may be of either type. -/
def merge (existing incoming : VerificationType) : VerificationType :=
  if existing = incoming then existing
  else match existing, incoming with
    | .null, .object name => .object name
    | .object name, .null => .object name
    | .object _, .object _ => .object rootClass
    | _, _ => .top

/-- How often merging can still change a type. -/
def rank : VerificationType → Nat
  | .top => 0
  | .object name => if name = rootClass then 1 else 2
  | .null => 3
  | _ => 1

/-- The number of words of a value. -/
def width (t : VerificationType) : Nat := if t.isWide then 2 else 1

@[simp] theorem merge_self (t : VerificationType) : t.merge t = t := by simp [merge]

theorem rank_merge_lt {existing incoming : VerificationType}
    (h : existing.merge incoming ≠ existing) :
    (existing.merge incoming).rank < existing.rank := by
  unfold merge at h ⊢
  split at h
  · exact absurd rfl h
  · rename_i hne
    rw [if_neg hne]
    cases existing <;> cases incoming <;> simp_all [rank] <;> split <;> simp_all

end VerificationType

open VerificationType

/-- The sum of a measure over a list. -/
def total {α : Type} (measure : α → Nat) : List α → Nat
  | [] => 0
  | x :: xs => measure x + total measure xs

/-- The types of locals and stack where control reaches an event. -/
structure FlowState where
  locals : Array VerificationType
  stack : List VerificationType
  deriving DecidableEq

namespace FlowState

private def complain {α : Type} (fault : FlowFault) : Except Error α :=
  .error (.malformed (.flow fault))

/-- The state that a frame declares. -/
def ofFrame (frame : Frame) : FlowState where
  locals := (toSlots frame.locals).toArray
  stack := (toSlots frame.stack).reverse

/-- The frame that declares a state. -/
def toFrame (s : FlowState) : Frame where
  locals := dropTrailingTops (ofSlots s.locals.toList)
  stack := ofSlots s.stack.reverse

/-- The type of a local; slots behind the last are unusable. -/
def localAt (s : FlowState) (slot : Nat) : VerificationType := s.locals[slot]?.getD .top

def push (t : VerificationType) (s : FlowState) : FlowState :=
  { s with stack := if t.isWide then .top :: t :: s.stack else t :: s.stack }

/-- Takes words from the stack. -/
def pop (count : Nat) (s : FlowState) : Except Error FlowState :=
  if count ≤ s.stack.length then
    .ok { s with stack := s.stack.drop count }
  else
    complain (.underflow count s.stack.length)

/-- Takes a value of `count` words from the stack, with the type in its lowest word. -/
def popValue (count : Nat) (s : FlowState) : Except Error (VerificationType × FlowState) := do
  let after ← s.pop count
  return ((s.stack.take count).getLastD .top, after)

/-- Copies the top `count` words to below the `depth` words under them. -/
def duplicate (count depth : Nat) (s : FlowState) : Except Error FlowState :=
  if count + depth ≤ s.stack.length then
    .ok { s with
      stack := s.stack.take (count + depth) ++ s.stack.take count ++ s.stack.drop (count + depth) }
  else
    complain (.duplicateUnderflow (count + depth) s.stack.length)

/-- Exchanges the top two words. -/
def swap (s : FlowState) : Except Error FlowState :=
  match s.stack with
  | first :: second :: rest => .ok { s with stack := second :: first :: rest }
  | _ => complain (.underflow 2 s.stack.length)

/-- Enough slots for `count` locals. -/
def widen (count : Nat) (locals : Array VerificationType) : Array VerificationType :=
  locals ++ Array.replicate (count - locals.size) .top

/-- Stores a value in a local. A wide value of which it overwrites the second word is lost. -/
def setLocal (slot : Nat) (t : VerificationType) (s : FlowState) : FlowState :=
  let locals := widen (slot + t.width) s.locals
  let locals :=
    if 0 < slot && (locals[slot - 1]?.getD .top).isWide then
      locals.setIfInBounds (slot - 1) .top
    else
      locals
  let locals := locals.setIfInBounds slot t
  { s with locals := if t.isWide then locals.setIfInBounds (slot + 1) .top else locals }

/-- Replaces a type wherever it occurs. -/
def replace (old new : VerificationType) (s : FlowState) : FlowState where
  locals := s.locals.map fun t => if t = old then new else t
  stack := s.stack.map fun t => if t = old then new else t

/-! ### Merging -/

/-- The word that spoils a merge of stacks, the lowest if there are several. -/
def conflict? (existing incoming : List VerificationType) :
    Option (VerificationType × VerificationType) :=
  (existing.zip incoming).reverse.find? fun (t, u) => t.merge u = .top && t ≠ .top

/-- Merges the locals slot by slot, as many as there are already. -/
def mergeLocals (existing incoming : Array VerificationType) : Array VerificationType :=
  existing.mapIdx fun slot t => t.merge (incoming[slot]?.getD .top)

/-- The state of event `index` when control also reaches it in the state `incoming`. -/
def merge (index : Nat) (existing incoming : FlowState) : Except Error FlowState :=
  if existing.stack.length = incoming.stack.length then
    match conflict? existing.stack incoming.stack with
    | some (t, u) => complain (.stackTypes index t u)
    | none => .ok {
        locals := mergeLocals existing.locals incoming.locals
        stack := existing.stack.zipWith VerificationType.merge incoming.stack }
  else
    complain (.height index existing.stack.length incoming.stack.length)

/-- How often merging can still change a state. -/
def rank (s : FlowState) : Nat :=
  total VerificationType.rank s.locals.toList + total VerificationType.rank s.stack

/-- Moving types down one by one moves their sum down, unless none is moved. -/
private theorem total_rank_mapIdx (f : Nat → VerificationType → VerificationType)
    (hf : ∀ i t, f i t ≠ t → (f i t).rank < t.rank) (types : List VerificationType) :
    total VerificationType.rank (types.mapIdx f) ≤ total VerificationType.rank types ∧
      (types.mapIdx f ≠ types →
        total VerificationType.rank (types.mapIdx f) < total VerificationType.rank types) := by
  induction types generalizing f with
  | nil => simp
  | cons t types ih =>
    obtain ⟨hle, hlt⟩ := ih (fun i => f (i + 1)) (fun i t => hf (i + 1) t)
    simp only [List.mapIdx_cons, total]
    by_cases ht : f 0 t = t
    · rw [ht]
      refine ⟨Nat.add_le_add_left hle _, fun hne => Nat.add_lt_add_left (hlt fun h => hne ?_) _⟩
      rw [h]
    · have := hf 0 t ht
      omega

private theorem total_rank_zipWith (types others : List VerificationType)
    (hlen : types.length = others.length) :
    total VerificationType.rank (types.zipWith VerificationType.merge others)
        ≤ total VerificationType.rank types ∧
      (types.zipWith VerificationType.merge others ≠ types →
        total VerificationType.rank (types.zipWith VerificationType.merge others)
          < total VerificationType.rank types) := by
  induction types generalizing others with
  | nil => simp
  | cons t types ih =>
    cases others with
    | nil => simp at hlen
    | cons u others =>
      obtain ⟨hle, hlt⟩ := ih others (by simpa using hlen)
      simp only [List.zipWith_cons_cons, total]
      by_cases ht : t.merge u = t
      · rw [ht]
        refine ⟨Nat.add_le_add_left hle _, fun hne => Nat.add_lt_add_left (hlt fun h => hne ?_) _⟩
        rw [h]
      · have := rank_merge_lt ht
        omega

/-- A merge that changes a state lowers its rank. -/
theorem rank_lt_of_merge {index : Nat} {existing incoming merged : FlowState}
    (h : merge index existing incoming = .ok merged) (hne : merged ≠ existing) :
    merged.rank < existing.rank := by
  unfold merge at h
  split at h
  · rename_i hlen
    split at h
    · simp [complain] at h
    · obtain rfl := by simpa using h
      have hl := total_rank_mapIdx
        (fun slot t => t.merge (incoming.locals[slot]?.getD .top))
        (fun _ _ => rank_merge_lt) existing.locals.toList
      have hs := total_rank_zipWith existing.stack incoming.stack hlen
      simp only [rank, mergeLocals, Array.toList_mapIdx] at hl ⊢
      by_cases hstack :
          existing.stack.zipWith VerificationType.merge incoming.stack = existing.stack
      · have hlocals : existing.locals.toList.mapIdx
            (fun slot t => t.merge (incoming.locals[slot]?.getD .top)) ≠
            existing.locals.toList := by
          intro heq
          apply hne
          cases existing
          simp only [FlowState.mk.injEq]
          refine ⟨?_, hstack⟩
          apply Array.toList_inj.mp
          simpa [mergeLocals, Array.toList_mapIdx] using heq
        have := hl.2 hlocals
        omega
      · have := hs.2 hstack
        omega
  · simp [complain] at h

end FlowState
end ClassPatch
