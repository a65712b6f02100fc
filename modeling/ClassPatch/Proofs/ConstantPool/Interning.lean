import ClassPatch.Proofs.ConstantPool.Growth
import ClassPatch.Proofs.Outcome

/-!
# Adding to a pool

`PoolM.Steady` collects what holds of every computation that adds to a pool: whatever its outcome,
the pool has only grown and is still well formed, a success is repeated with the same result, and
without additions, in every larger pool, and only constants have been added whose references fit. So
once a computation has succeeded it `Finds` all it needs. What an addition returns resolves to what
was added.
-/

namespace ClassPatch

namespace PoolM

open ConstantPool hiding get

variable {α β : Type}

/-- The pool that an outcome leaves. -/
def after : EStateM.Result Error ConstantPool α → ConstantPool
  | .ok _ p => p
  | .error _ p => p

theorem lookUp_of_ok {f : ConstantPool → Except Error α} {p : ConstantPool} {x : α}
    (h : f p = .ok x) : lookUp f p = .ok x p := by
  rw [lookUp, EStateM.get_bind, h]
  rfl

theorem lookUp_of_error {f : ConstantPool → Except Error α} {p : ConstantPool} {e : Error}
    (h : f p = .error e) : lookUp f p = .error e p := by
  rw [lookUp, EStateM.get_bind, h]
  rfl

theorem after_lookUp (f : ConstantPool → Except Error α) (p : ConstantPool) :
    after (lookUp f p) = p := by
  cases h : f p with
  | error e => rw [lookUp_of_error h, after]
  | ok x => rw [lookUp_of_ok h, after]

/-! ### Adding a constant -/

/-- The pool with one more constant. -/
def appended (p : ConstantPool) (c : Constant) : ConstantPool where
  slots := if c.isWide then (p.slots.push (some c)).push none else p.slots.push (some c)
  indices := p.indices.insert c (UInt16.ofNat p.size)

theorem intern_of_found {p : ConstantPool} {c : Constant} {i : UInt16}
    (h : p.indices[c]? = some i) : intern c p = .ok i p := by
  simp only [intern, EStateM.get_bind, h]
  rfl

theorem intern_of_room {p : ConstantPool} {c : Constant} (h : p.indices[c]? = none)
    (hroom : p.size + c.width ≤ capacity) :
    intern c p = .ok (UInt16.ofNat p.size) (appended p c) := by
  simp only [intern, EStateM.get_bind, h, if_pos hroom]
  rfl

theorem intern_of_full {p : ConstantPool} {c : Constant} (h : p.indices[c]? = none)
    (hfull : ¬p.size + c.width ≤ capacity) :
    intern c p = .error (.limitExceeded .poolFull) p := by
  simp only [intern, EStateM.get_bind, h, if_neg hfull]
  rfl

theorem size_appended (p : ConstantPool) (c : Constant) :
    (appended p c).size = p.size + c.width := by
  simp only [appended, ConstantPool.size, Constant.width]
  split <;> simp

/-- A constant is found, or it is new and is appended, or it is new and there is no room. -/
theorem intern_cases (c : Constant) (p : ConstantPool) :
    (∃ i, p.indices[c]? = some i ∧ intern c p = .ok i p) ∨
      (p.indices[c]? = none ∧ p.size + c.width ≤ capacity ∧
        intern c p = .ok (UInt16.ofNat p.size) (appended p c)) ∨
      (p.indices[c]? = none ∧ capacity < p.size + c.width ∧
        intern c p = .error (.limitExceeded .poolFull) p) := by
  cases h : p.indices[c]? with
  | some i => exact .inl ⟨i, rfl, intern_of_found h⟩
  | none =>
    by_cases hroom : p.size + c.width ≤ capacity
    · exact .inr (.inl ⟨rfl, hroom, intern_of_room h hroom⟩)
    · exact .inr (.inr ⟨rfl, Nat.lt_of_not_le hroom, intern_of_full h hroom⟩)

theorem toList_slots_appended (p : ConstantPool) (c : Constant) :
    (appended p c).slots.toList = p.slots.toList ++ c.slots := by
  simp only [appended, Constant.slots]
  split <;> simp

theorem slots_appended (p : ConstantPool) (c : Constant) :
    p.slots.toList <+: (appended p c).slots.toList :=
  ⟨c.slots, (toList_slots_appended p c).symm⟩

theorem getElem?_indices_appended (p : ConstantPool) (c d : Constant) :
    (appended p c).indices[d]? = if c = d then some (UInt16.ofNat p.size) else p.indices[d]? := by
  simp only [appended, Std.TreeMap.getElem?_insert, Std.LawfulEqCmp.compare_eq_iff_eq]

theorem le_appended {p : ConstantPool} {c : Constant} (h : p.indices[c]? = none) :
    p ≤ appended p c where
  slots := slots_appended p c
  indices {d i} hd := by
    have hne : c ≠ d := by
      rintro rfl
      simp [h] at hd
    rw [getElem?_indices_appended, if_neg hne, hd]
  more := by
    refine .inr ?_
    rw [size_appended, Constant.width]
    split <;> omega

theorem get?_appended {p : ConstantPool} {c : Constant} (hroom : p.size + c.width ≤ capacity) :
    (appended p c).get? (UInt16.ofNat p.size) = some c := by
  have hlt : p.size < 65536 := by
    have : capacity = 65535 := rfl
    omega
  rw [get?_eq_some, UInt16.toNat_ofNat_of_lt' hlt]
  simp only [appended, ConstantPool.size]
  split
  · rw [Array.getElem?_push_lt (by simp)]
    simp
  · simp

theorem wellFormed_appended {p : ConstantPool} {c : Constant} (hp : p.WellFormed)
    (h : p.indices[c]? = none) (hroom : p.size + c.width ≤ capacity) :
    (appended p c).WellFormed where
  zero := by
    have hzero : (appended p c).slots.toList[0]? = p.slots.toList[0]? := by
      obtain ⟨more, hmore⟩ := slots_appended p c
      have hpos : 0 < p.slots.toList.length := by
        have := (Array.getElem?_eq_some_iff.mp hp.zero).1
        simpa using this
      rw [← hmore, List.getElem?_append_left hpos]
    simpa [Array.getElem?_toList, hp.zero] using hzero
  size_le := by rwa [size_appended]
  found {d i} hd := by
    rw [getElem?_indices_appended] at hd
    split at hd
    · rename_i heq
      obtain rfl := by simpa using hd
      exact heq ▸ get?_appended hroom
    · exact get?_mono (le_appended h) (hp.found hd)

/-- A constant is added to the end of a pool, if at all. -/
theorem grows_intern (c : Constant) {p : ConstantPool} (hp : p.WellFormed) :
    p ≤ after (intern c p) ∧ (after (intern c p)).WellFormed := by
  obtain ⟨i, -, h⟩ | ⟨hnew, hroom, h⟩ | ⟨-, -, h⟩ := intern_cases c p
  · rw [h]
    exact ⟨le_refl p, hp⟩
  · rw [h]
    exact ⟨le_appended hnew, wellFormed_appended hp hnew hroom⟩
  · rw [h]
    exact ⟨le_refl p, hp⟩

/-! ### Computations that add to a pool -/

/-- The property lasts when a constant is added whose references have the right kinds. -/
def Lasting (P : ConstantPool → Prop) : Prop :=
  ∀ {p : ConstantPool} {c : Constant}, P p → p.check c = .ok () → P (appended p c)

/-- The property is kept when any constant is added, or there is no room for it. -/
def KeptByIntern (P : ConstantPool → Prop) : Prop :=
  ∀ (c : Constant) {p : ConstantPool}, P p → P (after (intern c p))

/-- The computation changes the pool by additions only, and succeeds again wherever it has
succeeded. -/
structure Repeats (m : PoolM α) : Prop where
  adds : ∀ {P : ConstantPool → Prop}, KeptByIntern P → ∀ {p : ConstantPool}, P p → P (after (m p))
  again : ∀ {p p' q : ConstantPool} {x : α},
    p.WellFormed → m p = .ok x p' → p' ≤ q → m q = .ok x q

/-- The computation repeats itself, and all that it adds fits. -/
structure Steady (m : PoolM α) : Prop extends Repeats m where
  keeps : ∀ {P : ConstantPool → Prop}, Lasting P → ∀ {p : ConstantPool}, p.WellFormed → P p →
    P (after (m p))

/-- The second pool comes from the first one by additions, all of which fit. -/
structure GrownFrom (p q : ConstantPool) : Prop where
  le : p ≤ q
  wellFormed : q.WellFormed
  keeps : ∀ {P : ConstantPool → Prop}, Lasting P → P p → P q

namespace GrownFrom

variable {p q r : ConstantPool}

theorem refl (hp : p.WellFormed) : GrownFrom p p := ⟨le_refl p, hp, fun _ h => h⟩

theorem trans (h : GrownFrom p q) (h' : GrownFrom q r) : GrownFrom p r :=
  ⟨le_trans h.le h'.le, h'.wellFormed, fun hP hp => h'.keeps hP (h.keeps hP hp)⟩

end GrownFrom

namespace Repeats

variable {m : PoolM α} {f : α → PoolM β} {p p' : ConstantPool} {x : α}

theorem grows (h : Repeats m) (hp : p.WellFormed) :
    p ≤ after (m p) ∧ (after (m p)).WellFormed := by
  refine h.adds (P := fun q => p ≤ q ∧ q.WellFormed) (fun c q hq => ?_) ⟨le_refl p, hp⟩
  obtain ⟨hle, hwf⟩ := grows_intern c hq.2
  exact ⟨le_trans hq.1 hle, hwf⟩

theorem le (h : Repeats m) (hp : p.WellFormed) (hm : m p = .ok x p') : p ≤ p' := by
  simpa [hm, after] using (h.grows hp).1

theorem wellFormed (h : Repeats m) (hp : p.WellFormed) (hm : m p = .ok x p') : p'.WellFormed := by
  simpa [hm, after] using (h.grows hp).2

theorem bind (hm : Repeats m) (hf : ∀ x, Repeats (f x)) : Repeats (m >>= f) where
  adds {P} hP {p} h := by
    have hkept := hm.adds hP h
    simp only [Bind.bind, EStateM.bind]
    cases hmp : m p with
    | error e p₁ => simpa [hmp, after] using hkept
    | ok x p₁ =>
      rw [hmp, after] at hkept
      exact (hf x).adds hP hkept
  again {p p' q y} hp h hq := by
    simp only [Bind.bind, EStateM.bind] at h ⊢
    cases hmp : m p with
    | error e p₁ => simp [hmp] at h
    | ok x p₁ =>
      simp only [hmp] at h
      have hp₁ := hm.wellFormed hp hmp
      have hle := (hf x).le hp₁ h
      rw [hm.again hp hmp (le_trans hle hq)]
      exact (hf x).again hp₁ h hq

end Repeats

namespace Steady

variable {m : PoolM α} {f : α → PoolM β}

theorem pure (x : α) : Steady (pure x : PoolM α) where
  adds _ _ h := h
  again _ h _ := by
    obtain ⟨rfl, -⟩ := by simpa [Pure.pure, EStateM.pure] using h
    rfl
  keeps _ _ _ h := h

theorem throw (e : Error) : Steady (throw e : PoolM α) where
  adds _ _ h := h
  again _ h _ := absurd h EStateM.throw_ne_ok
  keeps _ _ _ h := h

/-- What goes on with a result may rely on how it has been found. -/
theorem keeps_bind (hm : Steady m) {P : ConstantPool → Prop} (hP : Lasting P) {p : ConstantPool}
    (hp : p.WellFormed) (h : P p)
    (hf : ∀ {p' : ConstantPool} {x : α}, m p = .ok x p' → P p' → P (after (f x p'))) :
    P (after ((m >>= f) p)) := by
  have hkept := hm.keeps hP hp h
  simp only [Bind.bind, EStateM.bind]
  cases hmp : m p with
  | error e p' => simpa [hmp, after] using hkept
  | ok x p' =>
    rw [hmp, after] at hkept
    exact hf hmp hkept

theorem bind (hm : Steady m) (hf : ∀ x, Steady (f x)) : Steady (m >>= f) where
  toRepeats := hm.toRepeats.bind fun x => (hf x).toRepeats
  keeps hP _ hp h := hm.keeps_bind hP hp h fun hx h => (hf _).keeps hP (hm.wellFormed hp hx) h

theorem ite {c : Prop} [Decidable c] {m' : PoolM α} (h : Steady m) (h' : Steady m') :
    Steady (if c then m else m') := by
  split <;> assumption

theorem mapM {f : α → PoolM β} (hf : ∀ x, Steady (f x)) (xs : List α) : Steady (xs.mapM f) := by
  induction xs with
  | nil => exact pure _
  | cons x xs ih =>
    rw [List.mapM_cons]
    exact (hf x).bind fun _ => ih.bind fun _ => pure _

/-- A look-up whose successes last. -/
theorem lookUp {f : ConstantPool → Except Error α}
    (hf : ∀ {p q x}, p ≤ q → f p = .ok x → f q = .ok x) : Steady (PoolM.lookUp f) where
  adds _ p h := by
    rw [after_lookUp]
    exact h
  keeps _ _ _ h := by
    rw [after_lookUp]
    exact h
  again {p p' q x} hp h hq := by
    cases hfp : f p with
    | error e =>
      rw [lookUp_of_error hfp] at h
      cases h
    | ok y =>
      rw [lookUp_of_ok hfp] at h
      obtain ⟨rfl, rfl⟩ := EStateM.Result.ok.inj h
      exact lookUp_of_ok (hf hq hfp)

end Steady

/-- The computation gives `x` and finds all that it needs in the pool. -/
def Finds (m : PoolM α) (p : ConstantPool) (x : α) : Prop := m p = .ok x p

section Finds

variable {m : PoolM α} {f : α → PoolM β} {p p' q : ConstantPool} {x : α} {y : β}

theorem Steady.grownFrom (hm : Steady m) (hp : p.WellFormed) (h : m p = .ok x p') :
    GrownFrom p p' where
  le := hm.le hp h
  wellFormed := hm.wellFormed hp h
  keeps hP hkept := by simpa [h, after] using hm.keeps hP hp hkept

/-- Whatever the outcome, only what fits has been added. -/
theorem Steady.grownFrom_after (hm : Steady m) (hp : p.WellFormed) :
    GrownFrom p (after (m p)) :=
  ⟨(hm.grows hp).1, (hm.grows hp).2, fun hP hkept => hm.keeps hP hp hkept⟩

/-- What has succeeded finds everything in the pool that it leaves. -/
theorem Steady.finds (hm : Steady m) (hp : p.WellFormed) (h : m p = .ok x p') : Finds m p' x :=
  hm.again hp h (le_refl p')

theorem Finds.mono (h : Finds m p x) (hm : Steady m) (hp : p.WellFormed) (hq : p ≤ q) :
    Finds m q x :=
  hm.again hp h hq

theorem finds_pure {x y : α} : Finds (pure x : PoolM α) p y ↔ x = y := by
  simp [Finds, EStateM.pure_eq_ok]

theorem not_finds_throw {e : Error} {x : α} : ¬Finds (throw e : PoolM α) p x :=
  EStateM.throw_ne_ok

theorem finds_ite {c : Prop} [Decidable c] {m' : PoolM α} (h : Finds (if c then m else m') p x) :
    c ∧ Finds m p x ∨ ¬c ∧ Finds m' p x := by
  split at h
  · exact .inl ⟨‹_›, h⟩
  · exact .inr ⟨‹_›, h⟩

theorem finds_bind (hm : Steady m) (hf : ∀ x, Steady (f x)) (hp : p.WellFormed) :
    Finds (m >>= f) p y ↔ ∃ x, Finds m p x ∧ Finds (f x) p y := by
  constructor
  · intro h
    obtain ⟨x, p₁, hx, hy⟩ := EStateM.bind_eq_ok.mp h
    have hp₁ := hm.wellFormed hp hx
    exact ⟨x, hm.again hp hx ((hf x).le hp₁ hy), (hf x).finds hp₁ hy⟩
  · rintro ⟨x, hx, hy⟩
    exact EStateM.bind_eq_ok.mpr ⟨x, p, hx, hy⟩

theorem finds_mapM {f : α → PoolM β} (hf : ∀ x, Steady (f x)) (hp : p.WellFormed) {xs : List α}
    {ys : List β} : Finds (xs.mapM f) p ys ↔ List.Forall₂ (fun x y => Finds (f x) p y) xs ys := by
  induction xs generalizing ys with
  | nil => cases ys <;> simp [finds_pure]
  | cons x xs ih =>
    rw [List.mapM_cons, finds_bind (hf x) (fun _ => (Steady.mapM hf xs).bind fun _ => .pure _) hp,
      List.forall₂_cons_left_iff]
    constructor
    · rintro ⟨y, hy, h⟩
      obtain ⟨ys', hys, h⟩ := (finds_bind (Steady.mapM hf xs) (fun _ => .pure _) hp).mp h
      exact ⟨y, ys', hy, ih.mp hys, (finds_pure.mp h).symm⟩
    · rintro ⟨y, ys', hy, hys, rfl⟩
      exact ⟨y, hy, (finds_bind (Steady.mapM hf xs) (fun _ => .pure _) hp).mpr
        ⟨ys', ih.mpr hys, finds_pure.mpr rfl⟩⟩

/-- What a steady computation finds, by a relation between pools and results. -/
structure Splits (m : PoolM α) (R : ConstantPool → α → Prop) : Prop where
  steady : Steady m
  finds : ∀ {p : ConstantPool} {x : α}, p.WellFormed → (Finds m p x ↔ R p x)

theorem Steady.splits (hm : Steady m) : Splits m (Finds m) := ⟨hm, fun _ => Iff.rfl⟩

theorem Splits.bind {R : ConstantPool → α → Prop} {S : α → ConstantPool → β → Prop}
    (hm : Splits m R) (hf : ∀ x, Splits (f x) (S x)) :
    Splits (m >>= f) fun p y => ∃ x, R p x ∧ S x p y where
  steady := hm.steady.bind fun x => (hf x).steady
  finds hp := by
    rw [finds_bind hm.steady (fun x => (hf x).steady) hp]
    simp only [hm.finds hp, (hf _).finds hp]

theorem Splits.pure (x : α) : Splits (pure x) fun _ y => y = x :=
  ⟨.pure x, fun _ => finds_pure.trans eq_comm⟩

end Finds

/-! ### The additions -/

theorem repeats_intern (c : Constant) : Repeats (intern c) where
  adds hP _ h := hP c h
  again {p p' q i} _ hi hq := by
    refine intern_of_found (hq.indices ?_)
    obtain ⟨j, hfound, h⟩ | ⟨-, -, h⟩ | ⟨-, -, h⟩ := intern_cases c p
    · obtain ⟨rfl, rfl⟩ := EStateM.Result.ok.inj (h.symm.trans hi)
      exact hfound
    · obtain ⟨rfl, rfl⟩ := EStateM.Result.ok.inj (h.symm.trans hi)
      rw [getElem?_indices_appended, if_pos rfl]
    · cases h.symm.trans hi

/-- A constant whose references fit is added without harm. -/
theorem keeps_intern {P : ConstantPool → Prop} (hP : Lasting P) {p : ConstantPool} {c : Constant}
    (hfits : p.check c = .ok ()) (h : P p) : P (after (intern c p)) := by
  obtain ⟨i, -, hintern⟩ | ⟨-, -, hintern⟩ | ⟨-, -, hintern⟩ := intern_cases c p
  · rwa [hintern]
  · rw [hintern]
    exact hP h hfits
  · rwa [hintern]

/-- A constant that refers to nothing always fits. -/
theorem steady_intern {c : Constant} (hfits : ∀ p : ConstantPool, p.check c = .ok ()) :
    Steady (intern c) where
  toRepeats := repeats_intern c
  keeps hP _ _ h := keeps_intern hP (hfits _) h

theorem steady_text (s : String) : Steady (text s) := steady_intern fun _ => rfl

/-! ### What was added is found -/

variable {p p' q : ConstantPool} {i : UInt16}

theorem get?_of_intern {c : Constant} (hp : p.WellFormed) (h : intern c p = .ok i p')
    (hq : p' ≤ q) : q.get? i = some c := by
  refine get?_mono hq ?_
  obtain ⟨j, hfound, hintern⟩ | ⟨-, hroom, hintern⟩ | ⟨-, -, hintern⟩ := intern_cases c p
  · obtain ⟨rfl, rfl⟩ := EStateM.Result.ok.inj (hintern.symm.trans h)
    exact hp.found hfound
  · obtain ⟨rfl, rfl⟩ := EStateM.Result.ok.inj (hintern.symm.trans h)
    exact get?_appended hroom
  · cases hintern.symm.trans h

theorem text_of_text {s : String} (hp : p.WellFormed) (h : text s p = .ok i p') (hq : p' ≤ q) :
    q.text i = .ok s :=
  text_eq_ok.mpr ⟨_, get?_of_intern hp h hq, Text.ModifiedUtf8.decode_encode s⟩

/-- An entry that refers to a text fits where the text has been added. -/
private theorem steady_entry (s : String) {entry : UInt16 → Constant}
    (hcheck : ∀ (p : ConstantPool) (i : UInt16), p.check (entry i) = p.expect i .utf8) :
    Steady (text s >>= fun i => intern (entry i)) where
  toRepeats := (steady_text s).toRepeats.bind fun _ => repeats_intern _
  keeps hP _ hp h := by
    refine (steady_text s).keeps_bind hP hp h fun htext h => keeps_intern hP ?_ h
    rw [hcheck]
    exact expect_eq_ok.mpr ⟨_, get?_of_intern hp htext (le_refl _), rfl⟩

theorem steady_classRef (s : String) : Steady (classRef s) := steady_entry s fun _ _ => rfl

theorem steady_string (s : String) : Steady (string s) := steady_entry s fun _ _ => rfl

theorem steady_methodType (s : String) : Steady (methodType s) := steady_entry s fun _ _ => rfl

theorem steady_nameAndType (s t : String) : Steady (nameAndType s t) where
  toRepeats := (steady_text s).toRepeats.bind fun _ => (steady_text t).toRepeats.bind fun _ =>
    repeats_intern _
  keeps hP _ hp h := by
    refine (steady_text s).keeps_bind hP hp h fun hs h => ?_
    have hp' := (steady_text s).wellFormed hp hs
    refine (steady_text t).keeps_bind hP hp' h fun ht h => keeps_intern hP ?_ h
    have hname := get?_of_intern hp hs ((steady_text t).le hp' ht)
    have hdescriptor := get?_of_intern hp' ht (le_refl _)
    exact check_nameAndType.mpr ⟨expect_eq_ok.mpr ⟨_, hname, rfl⟩,
      expect_eq_ok.mpr ⟨_, hdescriptor, rfl⟩⟩

/-- An entry that refers to a text finds it. -/
private theorem text_of_entry {s : String} {entry : UInt16 → Constant} (hp : p.WellFormed)
    (h : (text s >>= fun j => intern (entry j)) p = .ok i p') (hq : p' ≤ q) :
    ∃ j, q.get? i = some (entry j) ∧ q.text j = .ok s := by
  obtain ⟨j, p₁, htext, hintern⟩ := EStateM.bind_eq_ok.mp h
  have hp₁ := (steady_text s).wellFormed hp htext
  have hle := (repeats_intern _).le hp₁ hintern
  exact ⟨j, get?_of_intern hp₁ hintern hq, text_of_text hp htext (le_trans hle hq)⟩

theorem className_of_classRef {s : String} (hp : p.WellFormed) (h : classRef s p = .ok i p')
    (hq : p' ≤ q) : q.className i = .ok s :=
  className_eq_ok.mpr (text_of_entry hp h hq)

theorem text_of_string {s : String} (hp : p.WellFormed) (h : string s p = .ok i p')
    (hq : p' ≤ q) : ∃ j, q.get? i = some (.string j) ∧ q.text j = .ok s :=
  text_of_entry hp h hq

theorem text_of_methodType {s : String} (hp : p.WellFormed) (h : methodType s p = .ok i p')
    (hq : p' ≤ q) : ∃ j, q.get? i = some (.methodType j) ∧ q.text j = .ok s :=
  text_of_entry hp h hq

theorem text_of_classRef {s : String} (hp : p.WellFormed) (h : classRef s p = .ok i p')
    (hq : p' ≤ q) : ∃ j, q.get? i = some (.classRef j) ∧ q.text j = .ok s :=
  text_of_entry hp h hq

theorem exists_of_nameAndType {s t : String} (hp : p.WellFormed) (h : nameAndType s t p = .ok i p')
    (hq : p' ≤ q) :
    ∃ j k, q.get? i = some (.nameAndType j k) ∧ q.text j = .ok s ∧ q.text k = .ok t := by
  obtain ⟨j, p₁, hs, h⟩ := EStateM.bind_eq_ok.mp h
  obtain ⟨k, p₂, ht, hintern⟩ := EStateM.bind_eq_ok.mp h
  have hp₁ := (steady_text s).wellFormed hp hs
  have hp₂ := (steady_text t).wellFormed hp₁ ht
  have hle := le_trans ((repeats_intern _).le hp₂ hintern) hq
  exact ⟨j, k, get?_of_intern hp₂ hintern hq,
    text_of_text hp hs (le_trans ((steady_text t).le hp₁ ht) hle), text_of_text hp₁ ht hle⟩

theorem nameAndType_of_nameAndType {s t : String} (hp : p.WellFormed)
    (h : nameAndType s t p = .ok i p') (hq : p' ≤ q) : q.nameAndType i = .ok (s, t) :=
  nameAndType_eq_ok.mpr (exists_of_nameAndType hp h hq)

theorem steady_member (kind : MemberKind) (owner name descriptor : String) :
    Steady (member kind owner name descriptor) where
  toRepeats := (steady_classRef owner).toRepeats.bind fun _ =>
    (steady_nameAndType name descriptor).toRepeats.bind fun _ => repeats_intern _
  keeps hP _ hp h := by
    refine (steady_classRef owner).keeps_bind hP hp h fun howner h => ?_
    have hp' := (steady_classRef owner).wellFormed hp howner
    refine (steady_nameAndType name descriptor).keeps_bind hP hp' h fun hsignature h =>
      keeps_intern hP ?_ h
    obtain ⟨j, howner, -⟩ := text_of_classRef hp howner
      ((steady_nameAndType name descriptor).le hp' hsignature)
    obtain ⟨k, l, hsignature, -⟩ := exists_of_nameAndType hp' hsignature (le_refl _)
    exact check_member.mpr ⟨expect_eq_ok.mpr ⟨_, howner, rfl⟩,
      expect_eq_ok.mpr ⟨_, hsignature, rfl⟩⟩

theorem memberRef_of_member {kind : MemberKind} {owner name descriptor : String}
    (hp : p.WellFormed) (h : member kind owner name descriptor p = .ok i p') (hq : p' ≤ q) :
    q.memberRef i = .ok { kind, owner, name, descriptor } := by
  obtain ⟨j, p₁, howner, h⟩ := EStateM.bind_eq_ok.mp h
  obtain ⟨k, p₂, hsignature, hintern⟩ := EStateM.bind_eq_ok.mp h
  have hp₁ := (steady_classRef owner).wellFormed hp howner
  have hp₂ := (steady_nameAndType name descriptor).wellFormed hp₁ hsignature
  have hle := le_trans ((repeats_intern _).le hp₂ hintern) hq
  exact memberRef_eq_ok.mpr ⟨j, k, get?_of_intern hp₂ hintern hq,
    className_of_classRef hp howner
      (le_trans ((steady_nameAndType name descriptor).le hp₁ hsignature) hle),
    nameAndType_of_nameAndType hp₁ hsignature hle⟩

theorem ne_zero_of_classRef {s : String} (hp : p.WellFormed) (h : classRef s p = .ok i p') :
    i ≠ 0 := by
  obtain ⟨j, hget, -⟩ := text_of_classRef hp h (le_refl p')
  exact ((steady_classRef s).wellFormed hp h).ne_zero hget

end PoolM

/-- An addition to a pool. -/
inductive PoolCall
  | text (value : String)
  | classRef (name : String)
  | string (value : String)
  | methodType (descriptor : String)
  | nameAndType (name descriptor : String)
  | member (kind : MemberKind) (owner name descriptor : String)

/-- What the call does to a pool. -/
def PoolCall.run : PoolCall → PoolM UInt16
  | .text value => PoolM.text value
  | .classRef name => PoolM.classRef name
  | .string value => PoolM.string value
  | .methodType descriptor => PoolM.methodType descriptor
  | .nameAndType name descriptor => PoolM.nameAndType name descriptor
  | .member kind owner name descriptor => PoolM.member kind owner name descriptor

theorem PoolCall.steady_run : ∀ call : PoolCall, PoolM.Steady call.run
  | .text value => PoolM.steady_text value
  | .classRef name => PoolM.steady_classRef name
  | .string value => PoolM.steady_string value
  | .methodType descriptor => PoolM.steady_methodType descriptor
  | .nameAndType name descriptor => PoolM.steady_nameAndType name descriptor
  | .member kind owner name descriptor => PoolM.steady_member kind owner name descriptor

end ClassPatch
