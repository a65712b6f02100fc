import ClassPatch.Proofs.Bytes.Taking
import ClassPatch.Proofs.Code.StackMapRecovery

/-!
# Frames take the fewest bytes

The format has seven forms for a frame. Which of them will do depends on the frame before and on the
distance, and so does the size of each. Whatever a reader takes for a frame has the size of one of
its forms, and the writer uses the smallest.
-/

namespace ClassPatch

open PoolM Cursor

/-- How many bytes a stored type takes. -/
def VerificationType.storedSize : VerificationType → Nat
  | object _ | uninitialized _ => 3
  | _ => 1

namespace StackMap

variable {α β σ : Type} {offsetOf : Label → Except Error Nat} {labelAt : Nat → StateM σ Label}
  {p q : ConstantPool}

/-- How many bytes stored types take. -/
def storedSize (types : List VerificationType) : Nat := (types.map (·.storedSize)).sum

theorem storedSize_cons (t : VerificationType) (types : List VerificationType) :
    storedSize (t :: types) = t.storedSize + storedSize types := by
  rw [storedSize, List.map_cons, List.sum_cons]
  rfl

theorem storedSize_append (types types' : List VerificationType) :
    storedSize (types ++ types') = storedSize types + storedSize types' := by
  rw [storedSize, List.map_append, List.sum_append]
  rfl

/-- A form of a frame that stands behind locals at a distance takes so many bytes. -/
inductive Form (before : List VerificationType) (distance : Nat) (frame : Frame) : Nat → Prop
  | same (hlocals : frame.locals = before) (hstack : frame.stack = []) (hnear : distance < 64) :
      Form before distance frame 1
  | sameFar (hlocals : frame.locals = before) (hstack : frame.stack = []) :
      Form before distance frame 3
  | item {t : VerificationType} (hlocals : frame.locals = before) (hstack : frame.stack = [t])
      (hnear : distance < 64) : Form before distance frame (1 + t.storedSize)
  | itemFar {t : VerificationType} (hlocals : frame.locals = before) (hstack : frame.stack = [t]) :
      Form before distance frame (3 + t.storedSize)
  | append {added : List VerificationType} (hlocals : frame.locals = before ++ added)
      (hone : 1 ≤ added.length) (hthree : added.length ≤ 3) (hstack : frame.stack = []) :
      Form before distance frame (3 + storedSize added)
  | chop {removed : List VerificationType} (hlocals : before = frame.locals ++ removed)
      (hone : 1 ≤ removed.length) (hthree : removed.length ≤ 3) (hstack : frame.stack = []) :
      Form before distance frame 3
  | full : Form before distance frame (7 + storedSize frame.locals + storedSize frame.stack)

/-! ### The smallest form -/

section Least

variable {before : List VerificationType} {distance : Nat} {frame : Frame} {n : Nat}

/-- A form begins with one byte, or with three if the distance does not go into that. -/
theorem Form.head_le (h : Form before distance frame n) : (if distance < 64 then 1 else 3) ≤ n := by
  cases h with
  | same _ _ hnear => rw [if_pos hnear]
  | item _ _ hnear =>
    rw [if_pos hnear]
    exact Nat.le_add_right 1 _
  | _ => split <;> omega

/-- A type on the stack is in every form. -/
theorem Form.item_le (h : Form before distance frame n) {t : VerificationType}
    (hstack : frame.stack = [t]) : (if distance < 64 then 1 else 3) + t.storedSize ≤ n := by
  cases h with
  | item _ hitem hnear =>
    obtain rfl := List.singleton_injective (hstack.symm.trans hitem)
    rw [if_pos hnear]
  | itemFar _ hitem =>
    obtain rfl := List.singleton_injective (hstack.symm.trans hitem)
    split <;> omega
  | full =>
    rw [hstack, storedSize_cons]
    split <;> omega
  | same _ hempty _ | sameFar _ hempty | append _ _ _ hempty | chop _ _ _ hempty =>
    exact absurd (hstack.symm.trans hempty) nofun

/-- Where locals change, three bytes are the least. -/
theorem Form.three_le (h : Form before distance frame n) (hne : frame.locals ≠ before) : 3 ≤ n := by
  cases h with
  | same hsame | item hsame => exact absurd hsame hne
  | _ => omega

/-- Locals that have been added are in every form. -/
theorem Form.append_le (h : Form before distance frame n) {added : List VerificationType}
    (hlocals : frame.locals = before ++ added) (hone : 1 ≤ added.length) :
    3 + storedSize added ≤ n := by
  have hlonger := congrArg List.length hlocals
  rw [List.length_append] at hlonger
  cases h with
  | append hlocals' =>
    obtain rfl := List.append_cancel_left (hlocals.symm.trans hlocals')
    exact Nat.le_refl _
  | full =>
    rw [hlocals, storedSize_append]
    omega
  | chop hshorter =>
    have := congrArg List.length hshorter
    rw [List.length_append] at this
    omega
  | same hsame | sameFar hsame | item hsame | itemFar hsame =>
    have := congrArg List.length hsame
    omega

/-- A frame that is not short has only the form that spells out all types. -/
theorem Form.eq_full (h : Form before distance frame n) (hlong : ¬IsShort before frame) :
    n = 7 + storedSize frame.locals + storedSize frame.stack := by
  cases h with
  | full => rfl
  | same hsame hempty | sameFar hsame hempty =>
    exact absurd (.inl ⟨hsame, hempty ▸ Nat.zero_le 1⟩) hlong
  | item hsame hitem | itemFar hsame hitem =>
    exact absurd (.inl ⟨hsame, hitem ▸ Nat.le_refl 1⟩) hlong
  | append hlonger hone hthree hempty =>
    exact absurd (.inr ⟨hempty, .inl ⟨_, hlonger, hone, hthree⟩⟩) hlong
  | chop hshorter hone hthree hempty =>
    exact absurd (.inr ⟨hempty, .inr ⟨_, hshorter, hone, hthree⟩⟩) hlong

end Least

/-! ### What readers take -/

/-- Whatever the reader gives belongs to the number of bytes that it has taken. -/
def Spends (m : MapReader σ α) (R : α → Nat → Prop) : Prop :=
  ∀ (c : Cursor) (s : σ) (x : α) (c' : Cursor) (s' : σ), m (c, s) = .ok x (c', s') →
    ∃ taken, c.rest = taken ++ c'.rest ∧ R x taken.length

namespace Spends

variable {m m' : MapReader σ α} {f : α → MapReader σ β} {R : α → Nat → Prop} {S : β → Nat → Prop}

theorem pure {x : α} (h : R x 0) : Spends (Pure.pure x : MapReader σ α) R := by
  intro c s y c' s' hm
  obtain ⟨rfl, hstate⟩ := EStateM.pure_eq_ok.mp hm
  obtain ⟨rfl, rfl⟩ := Prod.mk.inj hstate
  exact ⟨[], rfl, h⟩

theorem throw (e : Error) : Spends (MonadExcept.throw e : MapReader σ α) R :=
  fun _ _ _ _ _ hm => absurd hm EStateM.throw_ne_ok

theorem bind (hm : Spends m R) (hf : ∀ x n, R x n → Spends (f x) fun y n' => S y (n + n')) :
    Spends (m >>= f) S := by
  intro c s y c' s' h
  obtain ⟨x, ⟨c₁, s₁⟩, hx, hy⟩ := EStateM.bind_eq_ok.mp h
  obtain ⟨taken, hrest, hR⟩ := hm c s x c₁ s₁ hx
  obtain ⟨taken', hrest', hS⟩ := hf x _ hR c₁ s₁ y c' s' hy
  refine ⟨taken ++ taken', by rw [hrest, hrest', List.append_assoc], ?_⟩
  rw [List.length_append]
  exact hS

theorem ite {b : Prop} [Decidable b] (h : b → Spends m R) (h' : ¬b → Spends m' R) :
    Spends (if b then m else m') R := by
  split
  · exact h ‹_›
  · exact h' ‹_›

/-- Bytes that name no offsets. -/
theorem ofTakes {r : Reader α} {T : α → Bytes → Prop} (h : Reader.Takes r T)
    (himp : ∀ x taken, T x taken → R x taken.length) : Spends (bytes r : MapReader σ α) R := by
  intro c s x c' s' hm
  simp only [bytes] at hm
  split at hm
  · rename_i hr
    obtain ⟨rfl, hstate⟩ := EStateM.Result.ok.inj hm
    obtain ⟨rfl, rfl⟩ := Prod.mk.inj hstate
    obtain ⟨taken, hrest, hT⟩ := h _ _ _ hr
    exact ⟨taken, hrest, himp _ _ hT⟩
  · cases hm

theorem u8 : Spends (bytes Reader.u8 : MapReader σ UInt8) fun _ n => n = 1 :=
  ofTakes Reader.takes_u8 fun _ _ htaken => by rw [htaken, List.length_singleton]

theorem u16 : Spends (bytes Reader.u16 : MapReader σ UInt16) fun _ n => n = 2 :=
  ofTakes Reader.takes_u16 fun _ _ htaken => by rw [htaken, Word.length_encode]; rfl

/-- A label is asked for without reading on. -/
theorem label (offset : Nat) : Spends (label labelAt offset) fun _ n => n = 0 := by
  intro c s l c' s' hm
  obtain ⟨-, hstate⟩ := EStateM.Result.ok.inj hm
  obtain ⟨rfl, -⟩ := Prod.mk.inj hstate
  exact ⟨[], rfl, rfl⟩

end Spends

theorem spends_readType : Spends (readType q labelAt) fun t n => n = t.storedSize := by
  refine Spends.u8.bind fun tag n hn => ?_
  subst hn
  split
  case h_8 =>
    refine Spends.u16.bind fun index n hn => ?_
    subst hn
    split
    · exact .pure rfl
    · exact .throw _
  case h_9 =>
    refine Spends.u16.bind fun offset n hn => (Spends.label _).bind fun l n' hn' => ?_
    subst hn hn'
    exact .pure rfl
  case h_10 => exact .throw _
  all_goals exact .pure rfl

theorem spends_readTypes (count : Nat) : Spends (readTypes q labelAt count) fun types n =>
    types.length = count ∧ n = storedSize types := by
  induction count with
  | zero => exact .pure ⟨rfl, rfl⟩
  | succ count ih =>
    simp only [readTypes, List.replicate_succ, List.mapM_cons] at ih ⊢
    refine spends_readType.bind fun t n hn => ih.bind fun types n' h => .pure ?_
    obtain ⟨hlength, rfl⟩ := h
    refine ⟨congrArg Nat.succ hlength, ?_⟩
    rw [hn, storedSize_cons, Nat.add_zero]

private theorem toNat_lt_toNat {b c : UInt8} (hle : c.toNat ≤ b.toNat) (hne : b ≠ c) :
    c.toNat < b.toNat :=
  Nat.lt_of_le_of_ne hle fun heq => hne (UInt8.toNat_inj.mp heq.symm)

/-- Whatever is read as a frame has the size of one of its forms. -/
theorem spends_readFrame (previous : Frame) : Spends (readFrame q labelAt previous) fun row n =>
    Form previous.locals row.1 row.2 n := by
  refine Spends.u8.bind fun form n hn => ?_
  subst hn
  refine .ite (fun hsame => .pure (.same rfl rfl ?_)) fun hsame => ?_
  · have := UInt8.le_iff_toNat_le.mp hsame
    exact Nat.lt_succ_of_le this
  refine .ite (fun hitem => ?_) fun hitem => ?_
  · refine spends_readType.bind fun t n hn => .pure ?_
    subst hn
    refine .item rfl rfl ?_
    have : form.toNat ≤ 127 := UInt8.le_iff_toNat_le.mp hitem
    dsimp only
    omega
  refine .ite (fun _ => .throw _) fun hreserved => ?_
  refine Spends.u16.bind fun delta n hn => ?_
  subst hn
  refine .ite (fun _ => ?_) fun hfar => ?_
  · refine spends_readType.bind fun t n hn => .pure ?_
    subst hn
    rw [show 1 + (2 + (t.storedSize + 0)) = 3 + t.storedSize by omega]
    exact .itemFar rfl rfl
  have hlow : 247 < form.toNat :=
    toNat_lt_toNat (Nat.le_of_not_lt fun h => hreserved (UInt8.lt_iff_toNat_lt.mpr h)) hfar
  refine .ite (fun hchop => ?_) fun hchop => ?_
  · refine .ite (fun hle => .pure ?_) fun _ => .throw _
    have hhigh : form.toNat ≤ 250 := UInt8.le_iff_toNat_le.mp hchop
    have hremoved : (previous.locals.drop (previous.locals.length - (251 - form.toNat))).length =
        251 - form.toNat := by
      rw [List.length_drop]
      omega
    exact .chop (List.take_append_drop _ _).symm (by omega) (by omega) rfl
  refine .ite (fun _ => .pure (.sameFar rfl rfl)) fun hsameFar => ?_
  refine .ite (fun happend => ?_) fun _ => ?_
  · have hfrom : (251 : UInt8).toNat ≤ form.toNat :=
      Nat.lt_of_not_le fun h => hchop (UInt8.le_iff_toNat_le.mpr h)
    have hlow' : 251 < form.toNat := toNat_lt_toNat hfrom hsameFar
    have hhigh : form.toNat ≤ 254 := UInt8.le_iff_toNat_le.mp happend
    refine (spends_readTypes _).bind fun added n h => .pure ?_
    obtain ⟨hlength, rfl⟩ := h
    rw [show 1 + (2 + (storedSize added + 0)) = 3 + storedSize added by omega]
    exact .append rfl (by omega) (by omega) rfl
  · refine Spends.u16.bind fun _ n hn => (spends_readTypes _).bind fun locals m hm =>
      Spends.u16.bind fun _ n' hn' => (spends_readTypes _).bind fun stack m' hm' => .pure ?_
    rw [hn, hm.2, hn', hm'.2,
      show 1 + (2 + (2 + (storedSize locals + (2 + (storedSize stack + 0))))) =
        7 + storedSize locals + storedSize stack by omega]
    exact .full

/-! ### What writers put -/

section Writers

variable {bytes : Bytes} {before : List VerificationType} {distance : Nat} {frame : Frame}
  {delta : Bytes} {limit : Nat → Limit}

theorem length_of_half {n : Nat} (h : Finds (half n limit) p bytes) : bytes.length = 2 := by
  rw [(word_of_half h).2, Word.length_encode]
  rfl

theorem length_of_encodeType (hp : p.WellFormed) {t : VerificationType}
    (h : Finds (encodeType offsetOf t) p bytes) : bytes.length = t.storedSize := by
  cases t with
  | object name =>
    obtain ⟨index, -, h⟩ := (finds_bind (steady_classRef _) (fun _ => .pure _) hp).mp h
    obtain rfl := finds_pure.mp h
    rw [List.length_cons, Word.length_encode]
    rfl
  | uninitialized site =>
    unfold encodeType at h
    dsimp only at h
    split at h
    · obtain ⟨word, hword, h⟩ := (finds_bind (steady_half _ _) (fun _ => .pure _) hp).mp h
      obtain rfl := finds_pure.mp h
      rw [List.length_cons, length_of_half hword]
      rfl
    · exact absurd h not_finds_throw
  | _ =>
    obtain rfl := finds_pure.mp h
    rfl

theorem length_of_encodeTypes (hp : p.WellFormed) {types : List VerificationType}
    (h : Finds (encodeTypes offsetOf types) p bytes) : bytes.length = storedSize types := by
  obtain ⟨rows, hrows, rfl⟩ := types_of_finds hp h
  clear h
  induction hrows with
  | nil => rfl
  | cons hrow _ ih =>
    rw [List.flatten_cons, List.length_append, storedSize_cons, length_of_encodeType hp hrow, ih]

theorem length_of_encodeFull (hp : p.WellFormed) (hdelta : delta.length = 2)
    (h : Finds (encodeFull offsetOf delta frame) p bytes) :
    bytes.length = 7 + storedSize frame.locals + storedSize frame.stack := by
  obtain ⟨localCount, locals, stackCount, stack, hlocalCount, hlocals, hstackCount, hstack, rfl⟩ :=
    full_of_finds hp h
  simp only [List.length_cons, List.length_append, hdelta, length_of_half hlocalCount,
    length_of_half hstackCount, length_of_encodeTypes hp hlocals, length_of_encodeTypes hp hstack]
  omega

/-- No form takes fewer bytes than what has been written. -/
theorem Written.length_le (hp : p.WellFormed) (hdelta : Finds (half distance limit) p delta)
    (h : Written offsetOf p before frame distance delta bytes) {n : Nat}
    (hn : Form before distance frame n) : bytes.length ≤ n := by
  have hlength := length_of_half hdelta
  have hhead (b c : UInt8) : (if distance < 64 then [b] else c :: delta).length =
      if distance < 64 then 1 else 3 := by
    split
    · rfl
    · rw [List.length_cons, hlength]
  cases h with
  | same hlocals hstack =>
    rw [hhead]
    exact hn.head_le
  | item hlocals hstack ht =>
    rw [List.length_append, hhead, length_of_encodeType hp ht]
    exact hn.item_le hstack
  | append hlocals hone hthree hstack htypes =>
    have hle := hn.append_le hlocals hone
    rw [List.length_append, List.length_cons, hlength, length_of_encodeTypes hp htypes]
    exact hle
  | chop hlocals hone hthree hstack =>
    rw [List.length_cons, hlength]
    refine hn.three_le fun hsame => ?_
    have hshorter := congrArg List.length hlocals
    rw [List.length_append, hsame] at hshorter
    omega
  | full hlong hfull =>
    rw [length_of_encodeFull hp hlength hfull]
    exact Nat.le_of_eq (hn.eq_full hlong).symm

end Writers

/-! ### Stack maps -/

/-- The bytes are read as a frame at an offset behind a base: somewhere, with some pool, and with
some labels for offsets. -/
def ReadAs (base : Base) (offset : Nat) (frame : Frame) (bytes : Bytes) : Prop :=
  ∃ (σ : Type) (q : ConstantPool) (labelAt : Nat → StateM σ Label) (s s' : σ) (front back : Bytes)
    (read : List (Nat × Frame)),
    readNext q labelAt (base, read) (between front (bytes ++ back), s) =
      .ok (Base.behind offset frame, (offset, frame) :: read) (between (front ++ bytes) back, s')

/-- What is read as a frame is one of its forms. -/
theorem ReadAs.form {base : Base} {offset : Nat} {frame : Frame} {bytes : Bytes}
    (h : ReadAs base offset frame bytes) :
    Form base.frame.locals (offset - base.start) frame bytes.length := by
  obtain ⟨σ, q, labelAt, s, s', front, back, read, h⟩ := h
  obtain ⟨⟨delta, frame'⟩, ⟨c₁, s₁⟩, hread, h⟩ := EStateM.bind_eq_ok.mp h
  obtain ⟨hresult, hstate⟩ := EStateM.pure_eq_ok.mp h
  obtain ⟨rfl, rfl⟩ := Prod.mk.inj (List.cons.inj (Prod.mk.inj hresult).2).1
  obtain ⟨rfl, rfl⟩ := Prod.mk.inj hstate
  obtain ⟨taken, hrest, hform⟩ := spends_readFrame base.frame _ _ _ _ _ hread
  rw [rest_between, rest_between] at hrest
  obtain rfl := List.append_cancel_right hrest
  rwa [Nat.add_sub_cancel_left]

/-- A frame that has been written is read as this frame, if no two labels have one offset. -/
theorem readAs_of_finds (hp : p.WellFormed)
    (hinjective : ∀ l l' offset, offsetOf l = .ok offset → offsetOf l' = .ok offset → l = l')
    {base : Base} {offset : Nat} {frame : Frame} {bytes : Bytes}
    (h : Finds (encodeFrame offsetOf base offset frame) p bytes) :
    ReadAs base offset frame bytes := by
  classical
  have hinverse : ∀ l offset, offsetOf l = .ok offset →
      (fun offset => if h : ∃ l, offsetOf l = .ok offset then h.choose else ⟨0⟩ : Nat →
        Label) offset = l := by
    intro l offset hl
    have hsome : ∃ l, offsetOf l = .ok offset := ⟨l, hl⟩
    exact (dif_pos hsome).trans (hinjective _ _ _ hsome.choose_spec hl)
  obtain ⟨frame', s', hnext, hframe⟩ := (inverse hinverse).takes_readNext (s := ()) hp
    (ConstantPool.le_refl p) (.refl base.frame) h trivial []
  obtain rfl := FrameRel.eq hframe
  exact ⟨Unit, p, _, (), s', [], [], [], hnext.reads [] []⟩

/-- Behind its count a stack map holds its frames one by one. Whatever else is read as a frame at
its offset behind the one before takes at least as many bytes; and what has been written is read as
the frame, if no two labels have one offset. -/
theorem shortest (hp : p.WellFormed) {frames : List (Nat × Frame)} {initial : Frame} {bytes : Bytes}
    {p' : ConstantPool} (hencode : encode frames initial offsetOf p = .ok bytes p') :
    ∃ rows : List Bytes,
      bytes = Word.encode (UInt16.ofNat frames.length) ++ rows.flatten ∧
      List.Forall₂ (fun (base, offset, frame) written =>
        encodeFrame offsetOf base offset frame p' = .ok written p' ∧
        (∀ other, ReadAs base offset frame other → written.length ≤ other.length) ∧
        ((∀ l l' offset, offsetOf l = .ok offset → offsetOf l' = .ok offset → l = l') →
          ReadAs base offset frame written)) (rowsBehind ⟨0, initial⟩ frames) rows := by
  have hsteady : Steady (encode frames initial offsetOf) := steady_encode frames initial
  have hp' := hsteady.wellFormed hp hencode
  obtain ⟨count, rows, hcount, hrows, rfl⟩ := rows_of_finds hp' (hsteady.finds hp hencode)
  refine ⟨rows, by rw [(word_of_half hcount).2],
    hrows.imp fun row written hwritten => ⟨hwritten, fun other hother => ?_, fun h => ?_⟩⟩
  · obtain ⟨-, delta, hdelta, hform⟩ := written_of_finds hp' hwritten
    exact hform.length_le hp' hdelta hother.form
  · exact readAs_of_finds hp' h hwritten

/-- A local is chopped off in three bytes, and in no fewer. -/
theorem shortest_chop :
    let initial : Frame := ⟨[.integer, .float], []⟩
    let frames := [(3, (⟨[.integer], []⟩ : Frame)), (8, ⟨[.integer], [.null]⟩)]
    let offsetOf : Label → Except Error Nat := fun l => .error (.undefinedLabel l)
    ConstantPool.empty.WellFormed ∧
      encode frames initial offsetOf .empty = .ok [0, 2, 250, 0, 3, 68, 5] .empty ∧
      ReadAs ⟨0, initial⟩ 3 ⟨[.integer], []⟩ [250, 0, 3] ∧
      ∀ other, ReadAs ⟨0, initial⟩ 3 ⟨[.integer], []⟩ other → 3 ≤ other.length := by
  intro initial frames offsetOf
  have hencode : encode frames initial offsetOf .empty = .ok [0, 2, 250, 0, 3, 68, 5] .empty := by
    cbv
  have hinjective : ∀ l l' offset, offsetOf l = .ok offset → offsetOf l' = .ok offset → l = l' := by
    intro l l' offset h
    cases h
  obtain ⟨rows, -, hrows⟩ := shortest ConstantPool.wellFormed_empty hencode
  obtain ⟨written, -, ⟨hwritten, hshortest, hread⟩, -, -⟩ := List.forall₂_cons_left_iff.mp hrows
  have hchop :
      encodeFrame offsetOf ⟨0, initial⟩ 3 ⟨[.integer], []⟩ .empty = .ok [250, 0, 3] .empty := by
    cbv
  obtain ⟨rfl, -⟩ := EStateM.Result.ok.inj (hchop.symm.trans hwritten)
  exact ⟨ConstantPool.wellFormed_empty, hencode, hread hinjective, hshortest⟩

end StackMap
end ClassPatch
