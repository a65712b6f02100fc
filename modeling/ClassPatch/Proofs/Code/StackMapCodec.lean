import ClassPatch.Proofs.Code.TableCodec

/-!
# Stack maps are read back

A frame is stored as its difference from the one before, so what is read stands for what has been
written only relative to frames that stand for each other. What stands for what is up to the labels
that the reader gives to the offsets of uninitialized types: a `Naming` says what these are for. A
reader that numbers the offsets is one. Each offset takes three bytes, so its numbers do not run
out.
-/

namespace ClassPatch

open PoolM Reader Cursor

namespace StackMap

variable {α β σ : Type} {offsetOf : Label → Except Error Nat} {labelAt : Nat → StateM σ Label}

/-! ### What is written -/

/-- Not all types of a frame need be spelled out where it stands behind these locals. -/
def IsShort (before : List VerificationType) (frame : Frame) : Prop :=
  frame.locals = before ∧ frame.stack.length ≤ 1 ∨
    frame.stack = [] ∧
      ((∃ added, frame.locals = before ++ added ∧ 1 ≤ added.length ∧ added.length ≤ 3) ∨
        ∃ removed, before = frame.locals ++ removed ∧ 1 ≤ removed.length ∧ removed.length ≤ 3)

/-- The bytes of a frame behind locals, at a distance that is stored as `delta`, in the form that it
is given. -/
inductive Written (offsetOf : Label → Except Error Nat) (p : ConstantPool)
    (before : List VerificationType) (frame : Frame) (distance : Nat) (delta : Bytes) : Bytes → Prop
  | same (hlocals : frame.locals = before) (hstack : frame.stack = []) :
      Written offsetOf p before frame distance delta
        (if distance < 64 then [UInt8.ofNat distance] else 251 :: delta)
  | item {t : VerificationType} {bytes : Bytes} (hlocals : frame.locals = before)
      (hstack : frame.stack = [t]) (ht : Finds (encodeType offsetOf t) p bytes) :
      Written offsetOf p before frame distance delta
        ((if distance < 64 then [UInt8.ofNat (64 + distance)] else 247 :: delta) ++ bytes)
  | append {added : List VerificationType} {bytes : Bytes}
      (hlocals : frame.locals = before ++ added) (hone : 1 ≤ added.length)
      (hthree : added.length ≤ 3) (hstack : frame.stack = [])
      (htypes : Finds (encodeTypes offsetOf added) p bytes) :
      Written offsetOf p before frame distance delta
        (UInt8.ofNat (251 + added.length) :: delta ++ bytes)
  | chop {removed : List VerificationType} (hlocals : before = frame.locals ++ removed)
      (hone : 1 ≤ removed.length) (hthree : removed.length ≤ 3) (hstack : frame.stack = []) :
      Written offsetOf p before frame distance delta (UInt8.ofNat (251 - removed.length) :: delta)
  | full {bytes : Bytes} (hlong : ¬IsShort before frame)
      (h : Finds (encodeFull offsetOf delta frame) p bytes) :
      Written offsetOf p before frame distance delta bytes

section Written

variable {p : ConstantPool} {bytes : Bytes}

/-- A count or distance that has been written is a word, so it goes into 16 bits. -/
theorem word_of_half {n : Nat} {limit : Nat → Limit} (h : Finds (half n limit) p bytes) :
    n ≤ 65535 ∧ bytes = Word.encode (UInt16.ofNat n) := by
  unfold half at h
  split at h
  · exact ⟨‹_›, (finds_pure.mp h).symm⟩
  · exact absurd h not_finds_throw

/-- Types that have been written stand in a row. -/
theorem types_of_finds (hp : p.WellFormed) {types : List VerificationType}
    (h : Finds (encodeTypes offsetOf types) p bytes) : ∃ rows,
      List.Forall₂ (fun t row => Finds (encodeType offsetOf t) p row) types rows ∧
        bytes = rows.flatten := by
  obtain ⟨rows, hrows, h⟩ :=
    (finds_bind (Steady.mapM steady_encodeType _) (fun _ => .pure _) hp).mp h
  exact ⟨rows, (finds_mapM steady_encodeType hp).mp hrows, (finds_pure.mp h).symm⟩

/-- The parts of a frame all of whose types have been written. -/
theorem full_of_finds (hp : p.WellFormed) {delta : Bytes} {frame : Frame}
    (h : Finds (encodeFull offsetOf delta frame) p bytes) : ∃ localCount locals stackCount stack,
      Finds (half frame.locals.length .frameLocals) p localCount ∧
      Finds (encodeTypes offsetOf frame.locals) p locals ∧
      Finds (half frame.stack.length .frameStack) p stackCount ∧
      Finds (encodeTypes offsetOf frame.stack) p stack ∧
      bytes = 255 :: delta ++ localCount ++ locals ++ stackCount ++ stack := by
  obtain ⟨localCount, hlocalCount, h⟩ := (finds_bind (steady_half _ _) (fun _ =>
    (steady_encodeTypes _).bind fun _ => (steady_half _ _).bind fun _ =>
      (steady_encodeTypes _).bind fun _ => .pure _) hp).mp h
  obtain ⟨locals, hlocals, h⟩ := (finds_bind (steady_encodeTypes _) (fun _ =>
    (steady_half _ _).bind fun _ => (steady_encodeTypes _).bind fun _ => .pure _) hp).mp h
  obtain ⟨stackCount, hstackCount, h⟩ := (finds_bind (steady_half _ _) (fun _ =>
    (steady_encodeTypes _).bind fun _ => .pure _) hp).mp h
  obtain ⟨stack, hstack, h⟩ := (finds_bind (steady_encodeTypes _) (fun _ => .pure _) hp).mp h
  exact ⟨localCount, locals, stackCount, stack, hlocalCount, hlocals, hstackCount, hstack,
    (finds_pure.mp h).symm⟩

/-- A frame that has been written comes behind the one before it, and has been given a form. -/
theorem written_of_finds (hp : p.WellFormed) {base : Base} {offset : Nat} {frame : Frame}
    (h : Finds (encodeFrame offsetOf base offset frame) p bytes) : base.start ≤ offset ∧
      ∃ delta, Finds (half (offset - base.start) .frameDelta) p delta ∧
        Written offsetOf p base.frame.locals frame (offset - base.start) delta bytes := by
  unfold encodeFrame at h
  split at h
  · exact absurd h not_finds_throw
  · rename_i hstart
    obtain ⟨delta, hdelta, h⟩ := (finds_bind (steady_half _ _) (fun _ => by
      refine .ite (.pure _) (.ite ?_ (.ite ?_ (.ite (.pure _) (steady_encodeFull _ _))))
      · exact (steady_encodeTypes _).bind fun _ => .pure _
      · exact (steady_encodeTypes _).bind fun _ => .pure _) hp).mp h
    refine ⟨Nat.le_of_not_lt hstart, delta, hdelta, ?_⟩
    dsimp only at h
    rcases finds_ite h with ⟨hsame, h⟩ | ⟨hsame, h⟩
    · obtain ⟨hlocals, hempty⟩ := Bool.and_eq_true_iff.mp hsame
      obtain rfl := finds_pure.mp h
      exact .same (eq_of_beq hlocals) (List.isEmpty_iff.mp hempty)
    rcases finds_ite h with ⟨hitem, h⟩ | ⟨hitem, h⟩
    · obtain ⟨hlocals, hone⟩ := Bool.and_eq_true_iff.mp hitem
      obtain ⟨t, ht⟩ := List.length_eq_one_iff.mp (of_decide_eq_true hone)
      obtain ⟨types, htypes, h⟩ := (finds_bind (steady_encodeTypes _) (fun _ => .pure _) hp).mp h
      obtain rfl := finds_pure.mp h
      obtain ⟨rows, hrows, rfl⟩ := types_of_finds hp htypes
      rw [ht] at hrows
      obtain ⟨row, rest, hrow, hrest, rfl⟩ := List.forall₂_cons_left_iff.mp hrows
      obtain rfl := List.forall₂_nil_left_iff.mp hrest
      rw [List.flatten_singleton]
      exact .item (eq_of_beq hlocals) ht hrow
    rcases finds_ite h with ⟨happend, h⟩ | ⟨happend, h⟩
    · simp only [Bool.and_eq_true, decide_eq_true_eq] at happend
      obtain ⟨⟨⟨hempty, hone⟩, hthree⟩, hprefix⟩ := happend
      obtain ⟨types, htypes, h⟩ := (finds_bind (steady_encodeTypes _) (fun _ => .pure _) hp).mp h
      obtain rfl := finds_pure.mp h
      obtain ⟨added, hadded⟩ := List.isPrefixOf_iff_prefix.mp hprefix
      have hlength : frame.locals.length - base.frame.locals.length = added.length := by
        rw [← hadded, List.length_append, Nat.add_sub_cancel_left]
      rw [← hadded, List.drop_left] at htypes
      rw [hlength] at hone hthree ⊢
      exact .append hadded.symm hone hthree (List.isEmpty_iff.mp hempty) htypes
    rcases finds_ite h with ⟨hchop, h⟩ | ⟨hchop, h⟩
    · simp only [Bool.and_eq_true, decide_eq_true_eq] at hchop
      obtain ⟨⟨⟨hempty, hone⟩, hthree⟩, hprefix⟩ := hchop
      obtain rfl := finds_pure.mp h
      obtain ⟨removed, hremoved⟩ := List.isPrefixOf_iff_prefix.mp hprefix
      have hlength : base.frame.locals.length - frame.locals.length = removed.length := by
        rw [← hremoved, List.length_append, Nat.add_sub_cancel_left]
      rw [hlength] at hone hthree ⊢
      exact .chop hremoved.symm hone hthree (List.isEmpty_iff.mp hempty)
    · refine .full ?_ h
      rintro (⟨hlocals, hstack⟩ | ⟨hstack, ⟨added, hlocals, hone, hthree⟩ |
        ⟨removed, hlocals, hone, hthree⟩⟩)
      · rcases Nat.le_one_iff_eq_zero_or_eq_one.mp hstack with hzero | hone
        · exact hsame (by simp [hlocals, List.eq_nil_of_length_eq_zero hzero])
        · exact hitem (by simp [hlocals, hone])
      · exact happend (by simp [hstack, hlocals, hone, hthree])
      · exact hchop (by simp [hstack, hlocals, hone, hthree])

/-- The frames of a stack map with what each is stored relative to. -/
def rowsBehind (base : Base) (frames : List (Nat × Frame)) : List (Base × Nat × Frame) :=
  (base :: frames.map fun (offset, frame) => Base.behind offset frame).zip frames

/-- The writer of the frame in a row behind its base. -/
def encodeRow (offsetOf : Label → Except Error Nat) (row : Base × Nat × Frame) : PoolM Bytes :=
  encodeFrame offsetOf row.1 row.2.1 row.2.2

theorem steady_encodeRow (row : Base × Nat × Frame) : Steady (encodeRow offsetOf row) :=
  steady_encodeFrame row.1 row.2.1 row.2.2

/-- A stack map that has been written consists of its count and its frames. -/
theorem rows_of_finds (hp : p.WellFormed) {frames : List (Nat × Frame)} {initial : Frame}
    (h : Finds (encode frames initial offsetOf) p bytes) : ∃ count rows,
      Finds (half frames.length .frames) p count ∧
      List.Forall₂ (fun row bytes => Finds (encodeRow offsetOf row) p bytes)
        (rowsBehind ⟨0, initial⟩ frames) rows ∧ bytes = count ++ rows.flatten := by
  obtain ⟨count, hcount, h⟩ := (finds_bind (steady_half _ _) (fun _ =>
    (Steady.mapM steady_encodeRow _).bind fun _ => .pure _) hp).mp h
  obtain ⟨rows, hrows, h⟩ :=
    (finds_bind (Steady.mapM steady_encodeRow _) (fun _ => .pure _) hp).mp h
  exact ⟨count, rows, hcount, (finds_mapM steady_encodeRow hp).mp hrows, (finds_pure.mp h).symm⟩

end Written

/-! ### Reading with names -/

/-- Why types that a reader gives stand for those that a writer has been given, where the reader has
labels for offsets and the writer offsets for labels. -/
structure Naming (offsetOf : Label → Except Error Nat) (labelAt : Nat → StateM σ Label) where
  /-- A type that has been read stands for one that has been written. -/
  Stands : σ → VerificationType → VerificationType → Prop
  /-- So many bytes may lead from one state to another. -/
  Leads : Nat → σ → σ → Prop
  /-- So many bytes may still be read. -/
  Room : Nat → σ → Prop
  leads_refl : ∀ n s, Leads n s s
  leads_add : ∀ {n n' : Nat} {s s' s'' : σ}, Leads n s s' → Leads n' s' s'' → Leads (n + n') s s''
  room_mono : ∀ {n n' : Nat} {s : σ}, n' ≤ n → Room n s → Room n' s
  room_behind : ∀ {n n' : Nat} {s s' : σ}, Room (n + n') s → Leads n s s' → Room n' s'
  stands_mono : ∀ {n : Nat} {s s' : σ} {t t' : VerificationType},
    Leads n s s' → Stands s t t' → Stands s' t t'
  stands_self : ∀ (s : σ) {t : VerificationType}, (∀ l, t ≠ .uninitialized l) → Stands s t t
  label : ∀ {l : Label} {offset : Nat} {s : σ}, offsetOf l = .ok offset → Room 3 s →
    ∃ l' s', labelAt offset s = (l', s') ∧ Stands s' (.uninitialized l) (.uninitialized l') ∧
      Leads 3 s s'

theorem bytes_eq_ok {r : Reader α} {c c' : Cursor} {x : α} (s : σ) (h : r c = .ok x c') :
    bytes r (c, s) = .ok x (c', s) := by
  simp only [bytes, h]

namespace Naming

variable {N : Naming offsetOf labelAt} {s s' s'' : σ}

/-- A reader takes `bytes` and gives `x`, and it may have asked for labels. -/
structure Takes (N : Naming offsetOf labelAt) (m : MapReader σ α) (bytes : Bytes) (s s' : σ)
    (x : α) : Prop where
  reads : ∀ front back : Bytes,
    m (between front (bytes ++ back), s) = .ok x (between (front ++ bytes) back, s')
  leads : N.Leads bytes.length s s'

namespace Takes

variable {m : MapReader σ α} {f : α → MapReader σ β} {bytes bytes' : Bytes} {x : α} {y : β}

theorem pure (x : α) (s : σ) : N.Takes (pure x) [] s s x where
  reads front back := by simp [Pure.pure, EStateM.pure]
  leads := N.leads_refl 0 s

theorem bind (hm : N.Takes m bytes s s' x) (hf : N.Takes (f x) bytes' s' s'' y) :
    N.Takes (m >>= f) (bytes ++ bytes') s s'' y where
  reads front back := by
    have hx := hm.reads front (bytes' ++ back)
    have hy := hf.reads (front ++ bytes) back
    simp only [Bind.bind, EStateM.bind, List.append_assoc] at hx hy ⊢
    rw [hx]
    exact hy
  leads := by
    rw [List.length_append]
    exact N.leads_add hm.leads hf.leads

/-- A reader whose result is used without reading on. -/
theorem bind_last (hm : N.Takes m bytes s s' x) (hf : N.Takes (f x) [] s' s'' y) :
    N.Takes (m >>= f) bytes s s'' y := by
  simpa using hm.bind hf

/-- A reader whose result is passed on by a function. -/
theorem bind_pure {g : α → β} (hm : N.Takes m bytes s s' x) :
    N.Takes (m >>= fun x => Pure.pure (g x)) bytes s s' (g x) :=
  hm.bind_last (pure (g x) _)

/-- Bytes that name no offsets. -/
theorem ofReads {r : Reader α} (h : ∀ pos back, Reads r pos bytes back x) (s : σ) :
    N.Takes (StackMap.bytes r) bytes s s x where
  reads front back := bytes_eq_ok s (h _ back front rfl)
  leads := N.leads_refl _ s

/-- A byte in front of what the rest of a reader takes. -/
theorem byte_bind {f : UInt8 → MapReader σ β} {b : UInt8} (hf : N.Takes (f b) bytes s s' y) :
    N.Takes (StackMap.bytes u8 >>= f) (b :: bytes) s s' y :=
  (ofReads (reads_u8 b) s).bind hf

/-- A count or distance in front of what the rest of a reader takes. -/
theorem half_bind {f : UInt16 → MapReader σ β} {n : Nat} {limit : Nat → Limit}
    {count : Bytes} {p : ConstantPool} (h : Finds (half n limit) p count)
    (hf : ∀ word : UInt16, word.toNat = n → N.Takes (f word) bytes s s' y) :
    N.Takes (StackMap.bytes u16 >>= f) (count ++ bytes) s s' y := by
  obtain ⟨hle, rfl⟩ := word_of_half h
  exact (ofReads (reads_word _) s).bind (hf _ (UInt16.toNat_ofNat_of_lt' (Nat.lt_succ_of_le hle)))

end Takes

/-! ### Types -/

variable {p q : ConstantPool} {bytes : Bytes}

/-- An offset is given its label. -/
private theorem takes_uninitialized {l : Label} {offset : Nat} {limit : Nat → Limit} {word : Bytes}
    (hl : offsetOf l = .ok offset) (hword : Finds (half offset limit) p word)
    (hroom : N.Room (8 :: word).length s) :
    ∃ l' s', N.Takes (readType q labelAt) (8 :: word) s s' (.uninitialized l') ∧
      N.Stands s' (.uninitialized l) (.uninitialized l') := by
  obtain ⟨hle, rfl⟩ := word_of_half hword
  have hlength : (8 :: Word.encode (UInt16.ofNat offset)).length = 3 := by
    simp [Word.length_encode, Word.width]
  rw [hlength] at hroom
  obtain ⟨l', s', hlabel, hstands, hleads⟩ := N.label hl hroom
  refine ⟨l', s', ⟨fun front back => ?_, hlength ▸ hleads⟩, hstands⟩
  have htag := reads_u8 8 _ (Word.encode (UInt16.ofNat offset) ++ back) front rfl
  have hread := reads_word (UInt16.ofNat offset) _ back (front ++ [8]) rfl
  refine EStateM.bind_eq_ok.mpr ⟨_, _, bytes_eq_ok s htag,
    EStateM.bind_eq_ok.mpr ⟨_, _, bytes_eq_ok s hread, ?_⟩⟩
  refine EStateM.bind_eq_ok.mpr
    ⟨l', (between (front ++ 8 :: Word.encode (UInt16.ofNat offset)) back, s'), ?_, rfl⟩
  rw [UInt16.toNat_ofNat_of_lt' (Nat.lt_succ_of_le hle), List.append_assoc]
  simp only [StackMap.label, hlabel]
  rfl

theorem takes_readType (hp : p.WellFormed) (hpq : p ≤ q) {t : VerificationType}
    (h : Finds (encodeType offsetOf t) p bytes) (hroom : N.Room bytes.length s) :
    ∃ t' s', N.Takes (readType q labelAt) bytes s s' t' ∧ N.Stands s' t t' := by
  cases t with
  | object name =>
    obtain ⟨index, hindex, h⟩ := (finds_bind (steady_classRef _) (fun _ => .pure _) hp).mp h
    obtain rfl := finds_pure.mp h
    refine ⟨.object name, s, .byte_bind ?_, N.stands_self s nofun⟩
    refine (Takes.ofReads (reads_word index) s).bind_last ?_
    rw [className_of_classRef hp hindex hpq]
    exact .pure _ _
  | uninitialized site =>
    unfold encodeType at h
    dsimp only at h
    cases hsite : offsetOf site with
    | error e =>
      rw [hsite] at h
      exact absurd h not_finds_throw
    | ok offset =>
      rw [hsite] at h
      obtain ⟨word, hword, h⟩ := (finds_bind (steady_half _ _) (fun _ => .pure _) hp).mp h
      obtain rfl := finds_pure.mp h
      obtain ⟨l', s', hread, hstands⟩ := takes_uninitialized (q := q) hsite hword hroom
      exact ⟨.uninitialized l', s', hread, hstands⟩
  | _ =>
    obtain rfl := finds_pure.mp h
    exact ⟨_, s, .byte_bind (.pure _ _), N.stands_self s nofun⟩

theorem takes_readTypes (hp : p.WellFormed) (hpq : p ≤ q) {types : List VerificationType}
    (h : Finds (encodeTypes offsetOf types) p bytes) (hroom : N.Room bytes.length s) :
    ∃ types' s', N.Takes (readTypes q labelAt types.length) bytes s s' types' ∧
      List.Forall₂ (N.Stands s') types types' := by
  obtain ⟨rows, hrows, rfl⟩ := types_of_finds hp h
  clear h
  induction hrows generalizing s with
  | nil => exact ⟨[], s, .pure _ _, .nil⟩
  | @cons t row types rows hrow _ ih =>
    rw [List.flatten_cons, List.length_append] at hroom
    obtain ⟨t', s₁, ht, hstands⟩ :=
      takes_readType hp hpq hrow (N.room_mono (Nat.le_add_right _ _) hroom)
    obtain ⟨types', s₂, htypes, hall⟩ := ih (N.room_behind hroom ht.leads)
    refine ⟨t' :: types', s₂, ?_, .cons (N.stands_mono htypes.leads hstands) hall⟩
    simp only [readTypes, List.length_cons, List.replicate_succ, List.mapM_cons,
      List.flatten_cons] at htypes ⊢
    exact ht.bind htypes.bind_pure

end Naming

/-! ### Frames -/

/-- The types of one frame stand for those of another. -/
structure FrameRel (R : VerificationType → VerificationType → Prop) (frame frame' : Frame) :
    Prop where
  locals : List.Forall₂ R frame.locals frame'.locals
  stack : List.Forall₂ R frame.stack frame'.stack

theorem FrameRel.imp {R R' : VerificationType → VerificationType → Prop} {frame frame' : Frame}
    (h : FrameRel R frame frame') (himp : ∀ t t', R t t' → R' t t') : FrameRel R' frame frame' where
  locals := h.locals.imp fun _ _ => himp _ _
  stack := h.stack.imp fun _ _ => himp _ _

/-- Frames stand for others at the same offsets. -/
abbrev RowsRel (R : VerificationType → VerificationType → Prop)
    (frames frames' : List (Nat × Frame)) : Prop :=
  List.Forall₂ (fun row row' => row'.1 = row.1 ∧ FrameRel R row.2 row'.2) frames frames'

private theorem toNat_byte {n : Nat} (h : n < 256) : (UInt8.ofNat n).toNat = n :=
  UInt8.toNat_ofNat_of_lt' h

namespace Naming

variable {N : Naming offsetOf labelAt} {s s' s'' : σ} {p q : ConstantPool} {bytes : Bytes}

theorem frame_mono {n : Nat} {frame frame' : Frame} (h : FrameRel (N.Stands s) frame frame')
    (hleads : N.Leads n s s') : FrameRel (N.Stands s') frame frame' :=
  h.imp fun _ _ => N.stands_mono hleads

section Forms

variable {previous : Frame} {distance : Nat} {limit : Nat → Limit} {delta : Bytes}

/-- The form that changes nothing but the stack, which is empty. -/
private theorem takes_same (h : Finds (half distance limit) p delta) :
    N.Takes (readFrame q labelAt previous)
      (if distance < 64 then [UInt8.ofNat distance] else 251 :: delta) s s
      (distance, { previous with stack := [] }) := by
  split
  · rename_i hlt
    have hform : (UInt8.ofNat distance).toNat = distance := toNat_byte (by omega)
    refine .byte_bind ?_
    rw [if_pos (by rw [UInt8.le_iff_toNat_le, hform]; exact Nat.le_of_lt_succ hlt), hform]
    exact .pure _ _
  · refine .byte_bind ?_
    rw [if_neg (by decide), if_neg (by decide), if_neg (by decide), ← List.append_nil delta]
    refine .half_bind h fun word hword => ?_
    rw [if_neg (by decide), if_neg (by decide), if_pos rfl, hword]
    exact .pure _ _

/-- The forms with one type on the stack. -/
private theorem takes_item (h : Finds (half distance limit) p delta) {bytes : Bytes}
    {t : VerificationType} (ht : N.Takes (readType q labelAt) bytes s s' t) :
    N.Takes (readFrame q labelAt previous)
      ((if distance < 64 then [UInt8.ofNat (64 + distance)] else 247 :: delta) ++ bytes) s s'
      (distance, { previous with stack := [t] }) := by
  split
  · rename_i hlt
    have hform : (UInt8.ofNat (64 + distance)).toNat = 64 + distance := toNat_byte (by omega)
    refine .byte_bind ?_
    rw [if_neg (by rw [UInt8.le_iff_toNat_le, hform, Nat.not_le]; exact Nat.le_add_right 64 _),
      if_pos (by rw [UInt8.le_iff_toNat_le, hform]; show _ ≤ 127; omega), hform,
      Nat.add_sub_cancel_left]
    exact ht.bind_pure
  · refine .byte_bind ?_
    rw [if_neg (by decide), if_neg (by decide), if_neg (by decide)]
    refine .half_bind h fun word hword => ?_
    rw [if_pos rfl, hword]
    exact ht.bind_pure

/-- The form that chops locals off. -/
private theorem takes_chop (h : Finds (half distance limit) p delta) {removed : Nat}
    (hone : 1 ≤ removed) (hthree : removed ≤ 3) (hle : removed ≤ previous.locals.length) :
    N.Takes (readFrame q labelAt previous) (UInt8.ofNat (251 - removed) :: delta) s s
      (distance, ⟨previous.locals.take (previous.locals.length - removed), []⟩) := by
  have hform : (UInt8.ofNat (251 - removed)).toNat = 251 - removed := toNat_byte (by omega)
  have hbelow (n : UInt8) (hn : n.toNat < 248) : ¬UInt8.ofNat (251 - removed) ≤ n := by
    rw [UInt8.le_iff_toNat_le, hform]
    omega
  refine .byte_bind ?_
  rw [if_neg (hbelow _ (by decide)), if_neg (hbelow _ (by decide)),
    if_neg (by rw [UInt8.lt_iff_toNat_lt, hform]; show ¬_ < 247; omega), ← List.append_nil delta]
  refine .half_bind h fun word hword => ?_
  rw [if_neg (fun heq => by
      rw [heq] at hform
      have : (247 : UInt8).toNat = 247 := rfl
      omega),
    if_pos (by rw [UInt8.le_iff_toNat_le, hform]; show _ ≤ 250; omega)]
  simp only [hform, show 251 - (251 - removed) = removed by omega]
  rw [if_pos hle, hword]
  exact .pure _ _

/-- The form that appends locals. -/
private theorem takes_append (h : Finds (half distance limit) p delta) {bytes : Bytes}
    {added : Nat} (hone : 1 ≤ added) (hthree : added ≤ 3) {types : List VerificationType}
    (ht : N.Takes (readTypes q labelAt added) bytes s s' types) :
    N.Takes (readFrame q labelAt previous) (UInt8.ofNat (251 + added) :: delta ++ bytes)
      s s' (distance, ⟨previous.locals ++ types, []⟩) := by
  have hform : (UInt8.ofNat (251 + added)).toNat = 251 + added := toNat_byte (by omega)
  have hbelow (n : UInt8) (hn : n.toNat < 252) : ¬UInt8.ofNat (251 + added) ≤ n := by
    rw [UInt8.le_iff_toNat_le, hform]
    omega
  have hne (n : UInt8) (hn : n.toNat < 252) : UInt8.ofNat (251 + added) ≠ n := by
    intro heq
    rw [heq] at hform
    omega
  refine .byte_bind ?_
  rw [if_neg (hbelow _ (by decide)), if_neg (hbelow _ (by decide)),
    if_neg (by rw [UInt8.lt_iff_toNat_lt, hform]; show ¬_ < 247; omega)]
  refine .half_bind h fun word hword => ?_
  rw [if_neg (hne _ (by decide)), if_neg (hbelow _ (by decide)), if_neg (hne _ (by decide)),
    if_pos (by rw [UInt8.le_iff_toNat_le, hform]; show _ ≤ 254; omega), hform,
    Nat.add_sub_cancel_left, hword]
  exact ht.bind_pure

end Forms

/-- The form that spells out all types. -/
private theorem takes_full (hp : p.WellFormed) (hpq : p ≤ q) {previous frame : Frame}
    {distance : Nat} {limit : Nat → Limit} {delta : Bytes}
    (hdelta : Finds (half distance limit) p delta)
    (h : Finds (encodeFull offsetOf delta frame) p bytes) (hroom : N.Room bytes.length s) :
    ∃ frame' s', N.Takes (readFrame q labelAt previous) bytes s s' (distance, frame') ∧
      FrameRel (N.Stands s') frame frame' := by
  obtain ⟨localCount, locals, stackCount, stack, hlocalCount, hlocals, hstackCount, hstack, rfl⟩ :=
    full_of_finds hp h
  have hroom' : N.Room (locals.length + stack.length) s := by
    refine N.room_mono ?_ hroom
    simp only [List.length_cons, List.length_append]
    omega
  obtain ⟨locals', s₁, hread₁, hstands₁⟩ :=
    takes_readTypes hp hpq hlocals (N.room_mono (Nat.le_add_right _ _) hroom')
  obtain ⟨stack', s₂, hread₂, hstands₂⟩ :=
    takes_readTypes hp hpq hstack (N.room_behind hroom' hread₁.leads)
  refine ⟨⟨locals', stack'⟩, s₂, ?_,
    ⟨hstands₁.imp fun _ _ => N.stands_mono hread₂.leads, hstands₂⟩⟩
  simp only [List.cons_append, List.append_assoc]
  refine .byte_bind ?_
  rw [if_neg (by decide), if_neg (by decide), if_neg (by decide)]
  refine .half_bind hdelta fun word hword => ?_
  rw [if_neg (by decide), if_neg (by decide), if_neg (by decide), if_neg (by decide), hword]
  refine .half_bind hlocalCount fun count hcount => ?_
  rw [hcount]
  refine hread₁.bind (.half_bind hstackCount fun count' hcount' => ?_)
  rw [hcount']
  exact hread₂.bind_pure

theorem takes_readFrame (hp : p.WellFormed) (hpq : p ≤ q) {base : Base} {previous : Frame}
    {offset : Nat} {frame : Frame} (hbase : FrameRel (N.Stands s) base.frame previous)
    (h : Finds (encodeFrame offsetOf base offset frame) p bytes) (hroom : N.Room bytes.length s) :
    base.start ≤ offset ∧ ∃ frame' s',
      N.Takes (readFrame q labelAt previous) bytes s s' (offset - base.start, frame') ∧
      FrameRel (N.Stands s') frame frame' := by
  obtain ⟨hstart, delta, hdelta, hform⟩ := written_of_finds hp h
  refine ⟨hstart, ?_⟩
  cases hform with
  | same hlocals hstack =>
    refine ⟨_, s, takes_same hdelta, hlocals ▸ hbase.locals, ?_⟩
    rw [hstack]
    exact .nil
  | item hlocals hstack ht =>
    rw [List.length_append] at hroom
    obtain ⟨t', s', hread, hstands⟩ :=
      takes_readType hp hpq ht (N.room_mono (Nat.le_add_left _ _) hroom)
    refine ⟨_, s', takes_item hdelta hread, hlocals ▸ (frame_mono hbase hread.leads).locals, ?_⟩
    rw [hstack]
    exact .cons hstands .nil
  | append hlocals hone hthree hstack htypes =>
    rw [List.length_append] at hroom
    obtain ⟨types', s', hread, hstands⟩ :=
      takes_readTypes hp hpq htypes (N.room_mono (Nat.le_add_left _ _) hroom)
    refine ⟨_, s', takes_append hdelta hone hthree hread, ?_, ?_⟩
    · rw [hlocals]
      exact List.rel_append (frame_mono hbase hread.leads).locals hstands
    · rw [hstack]
      exact .nil
  | @chop removed hlocals hone hthree hstack =>
    have hlength := hbase.locals.length_eq
    rw [hlocals, List.length_append] at hlength
    refine ⟨_, s, takes_chop hdelta hone hthree (by omega), ?_, ?_⟩
    · have hkept := List.forall₂_take frame.locals.length hbase.locals
      rw [hlocals, List.take_left] at hkept
      rwa [← hlength, Nat.add_sub_cancel]
    · rw [hstack]
      exact .nil
  | full _ h => exact takes_full hp hpq hdelta h hroom

/-! ### Stack maps -/

/-- A frame is put before those that have been read already. -/
theorem takes_readNext (hp : p.WellFormed) (hpq : p ≤ q) {base : Base} {previous : Frame}
    {offset : Nat} {frame : Frame} (hbase : FrameRel (N.Stands s) base.frame previous)
    (h : Finds (encodeFrame offsetOf base offset frame) p bytes) (hroom : N.Room bytes.length s)
    (read : List (Nat × Frame)) : ∃ frame' s',
      N.Takes (readNext q labelAt (⟨base.start, previous⟩, read)) bytes s s'
        (Base.behind offset frame', (offset, frame') :: read) ∧
        FrameRel (N.Stands s') frame frame' := by
  obtain ⟨hle, frame', s', hread, hstands⟩ := takes_readFrame hp hpq hbase h hroom
  refine ⟨frame', s', hread.bind_last ?_, hstands⟩
  show N.Takes (pure (Base.behind (base.start + (offset - base.start)) frame',
    (base.start + (offset - base.start), frame') :: read)) [] s' s' _
  rw [Nat.add_sub_cancel' hle]
  exact .pure _ _

private theorem takes_rows (hp : p.WellFormed) (hpq : p ≤ q)
    {frames : List (Nat × Frame)} {rows : List Bytes} (base : Base) {previous : Frame}
    (read : List (Nat × Frame)) (hbase : FrameRel (N.Stands s) base.frame previous)
    (h : List.Forall₂ (fun row bytes => Finds (encodeRow offsetOf row) p bytes)
      (rowsBehind base frames) rows)
    (hroom : N.Room rows.flatten.length s) :
    ∃ last frames' s', N.Takes ((List.replicate frames.length ()).foldlM
        (fun sofar _ => readNext q labelAt sofar) (⟨base.start, previous⟩, read))
      rows.flatten s s' (last, frames'.reverse ++ read) ∧ RowsRel (N.Stands s') frames frames' := by
  induction frames generalizing rows base previous read s with
  | nil =>
    obtain rfl := List.forall₂_nil_left_iff.mp h
    exact ⟨_, [], s, .pure _ _, .nil⟩
  | cons row frames ih =>
    obtain ⟨offset, frame⟩ := row
    obtain ⟨bytes, rest, hbytes, hrest, rfl⟩ := List.forall₂_cons_left_iff.mp h
    rw [List.flatten_cons, List.length_append] at hroom
    obtain ⟨frame', s₁, hnext, hstands⟩ :=
      takes_readNext hp hpq hbase hbytes (N.room_mono (Nat.le_add_right _ _) hroom) read
    have hbehind : FrameRel (N.Stands s₁) (Base.behind offset frame).frame frame' := hstands
    obtain ⟨last, frames', s₂, hfold, hall⟩ := ih (Base.behind offset frame)
      ((offset, frame') :: read) hbehind hrest (N.room_behind hroom hnext.leads)
    refine ⟨last, (offset, frame') :: frames', s₂, ?_,
      .cons ⟨rfl, frame_mono hstands hfold.leads⟩ hall⟩
    rw [List.length_cons, List.replicate_succ, List.foldlM_cons, List.flatten_cons,
      List.reverse_cons, List.append_assoc]
    exact hnext.bind hfold

/-- A stack map is read back, up to the labels of offsets. -/
theorem decode_encode (N : Naming offsetOf labelAt) (hp : p.WellFormed) (hpq : p ≤ q)
    {frames : List (Nat × Frame)} {initial initial' : Frame}
    (hinitial : FrameRel (N.Stands s) initial initial')
    (h : Finds (encode frames initial offsetOf) p bytes) (hroom : N.Room bytes.length s) :
    ∃ frames' s', decode bytes q initial' labelAt s = (.ok frames', s') ∧
      N.Leads bytes.length s s' ∧ RowsRel (N.Stands s') frames frames' := by
  obtain ⟨count, rows, hcount, hrows, rfl⟩ := rows_of_finds hp h
  rw [List.length_append] at hroom
  obtain ⟨last, frames', s', hfold, hstand⟩ := takes_rows hp hpq ⟨0, initial⟩ [] hinitial hrows
    (N.room_mono (Nat.le_add_left _ _) hroom)
  obtain ⟨hle, rfl⟩ := word_of_half hcount
  have hword := reads_word (UInt16.ofNat frames.length) 0 rows.flatten [] rfl
  have hread : read q initial' labelAt
      (Cursor.ofBytes (Word.encode (UInt16.ofNat frames.length) ++ rows.flatten), s) =
        .ok frames' (between (Word.encode (UInt16.ofNat frames.length) ++ rows.flatten) [],
          s') := by
    refine EStateM.bind_eq_ok.mpr ⟨_, _, bytes_eq_ok s hword, ?_⟩
    rw [UInt16.toNat_ofNat_of_lt' (Nat.lt_succ_of_le hle)]
    have hrows := hfold.reads (Word.encode (UInt16.ofNat frames.length)) []
    rw [List.append_nil] at hrows
    refine EStateM.bind_eq_ok.mpr ⟨_, _, hrows, ?_⟩
    have hend := reads_hasMore _ [] (Word.encode (UInt16.ofNat frames.length) ++ rows.flatten) rfl
    refine EStateM.bind_eq_ok.mpr ⟨_, _, bytes_eq_ok s' hend, ?_⟩
    rw [if_neg (by decide), List.append_nil, List.append_nil, List.reverse_reverse]
    rfl
  refine ⟨frames', s', by simp only [decode, hread], ?_, hstand⟩
  rw [List.length_append]
  exact N.leads_add (N.leads_refl _ _) hfold.leads

end Naming

/-! ### Labels by number -/

/-- A type that has been read stands for one that has been written. -/
def Stands (offsetOf : Label → Except Error Nat) (offsets : Array Nat) :
    VerificationType → VerificationType → Prop
  | .uninitialized l, t => ∃ (k offset : Nat), offsetOf l = .ok offset ∧
      offsets[k]? = some offset ∧ k < UInt32.size ∧ t = .uninitialized ⟨UInt32.ofNat k⟩
  | t, t' => t' = t

theorem Stands.mono {offsets offsets' : Array Nat} {t t' : VerificationType}
    (h : Stands offsetOf offsets t t') (hgrows : ∃ more, offsets' = offsets ++ more) :
    Stands offsetOf offsets' t t' := by
  cases t with
  | uninitialized l =>
    obtain ⟨k, offset, hoffset, hk, hlt, ht⟩ := h
    obtain ⟨more, rfl⟩ := hgrows
    refine ⟨k, offset, hoffset, ?_, hlt, ht⟩
    rw [Array.getElem?_append_left (Array.getElem?_eq_some_iff.mp hk).1, hk]
  | _ => exact h

/-- A frame that has been read stands for one that has been written. -/
abbrev FrameStands (offsetOf : Label → Except Error Nat) (offsets : Array Nat) :
    Frame → Frame → Prop :=
  FrameRel (Stands offsetOf offsets)

/-- Frames that have been read stand for those that have been written, at the same offsets. -/
abbrev FramesStand (offsetOf : Label → Except Error Nat) (offsets : Array Nat) :
    List (Nat × Frame) → List (Nat × Frame) → Prop :=
  RowsRel (Stands offsetOf offsets)

/-- An offset takes the next number. -/
def numbering (offsetOf : Label → Except Error Nat) :
    Naming offsetOf CodeListing.numberOffset where
  Stands := Stands offsetOf
  Leads n offsets offsets' := (∃ more, offsets' = offsets ++ more) ∧
    3 * offsets'.size ≤ 3 * offsets.size + n ∧
    ∀ offset ∈ offsets', offset ∈ offsets ∨ ∃ l, offsetOf l = .ok offset
  Room n offsets := 3 * offsets.size + n < 3 * UInt32.size
  leads_refl _ offsets := ⟨⟨#[], by simp⟩, Nat.le_add_right _ _, fun _ h => .inl h⟩
  leads_add := by
    rintro n n' offsets offsets' offsets'' ⟨⟨more, rfl⟩, hsize, hsites⟩
      ⟨⟨more', rfl⟩, hsize', hsites'⟩
    refine ⟨⟨more ++ more', Array.append_assoc⟩, by omega, fun offset h => ?_⟩
    exact (hsites' offset h).elim (hsites offset) .inr
  room_mono hle hroom := Nat.lt_of_le_of_lt (Nat.add_le_add_left hle _) hroom
  room_behind := by
    rintro n n' offsets offsets' hroom ⟨-, hsize, -⟩
    omega
  stands_mono hleads h := h.mono hleads.1
  stands_self offsets t ht := by
    cases t with
    | uninitialized l => exact absurd rfl (ht l)
    | _ => rfl
  label := by
    intro l offset offsets hl hroom
    refine ⟨⟨UInt32.ofNat offsets.size⟩, offsets.push offset, rfl,
      ⟨offsets.size, offset, hl, by simp, by omega, rfl⟩, ⟨#[offset], by simp⟩, ?_, fun o ho => ?_⟩
    · rw [Array.size_push, Nat.mul_add]
    · rcases Array.mem_push.mp ho with ho | rfl
      · exact .inl ho
      · exact .inr ⟨l, hl⟩

/-- A stack map is read back with numbers for labels. -/
theorem decode_encode {p q : ConstantPool} {bytes : Bytes} (hp : p.WellFormed) (hpq : p ≤ q)
    {frames : List (Nat × Frame)} {initial : Frame}
    (hinitial : FrameStands offsetOf #[] initial initial)
    (h : Finds (encode frames initial offsetOf) p bytes) (hlength : bytes.length < UInt32.size) :
    ∃ frames' offsets, decode bytes q initial CodeListing.numberOffset #[] =
        (.ok frames', offsets) ∧ FramesStand offsetOf offsets frames frames' ∧
      ∀ offset ∈ offsets, ∃ l, offsetOf l = .ok offset := by
  have hroom : (numbering offsetOf).Room bytes.length #[] := by
    simp only [numbering, Array.size_empty]
    omega
  obtain ⟨frames', offsets, hdecode, ⟨-, -, hsites⟩, hstand⟩ :=
    (numbering offsetOf).decode_encode hp hpq hinitial h hroom
  refine ⟨frames', offsets, hdecode, hstand, fun offset hoffset => ?_⟩
  exact (hsites offset hoffset).resolve_left (by simp)

end StackMap
end ClassPatch
