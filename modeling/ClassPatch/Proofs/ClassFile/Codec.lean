import ClassPatch.ClassFile.Codec
import ClassPatch.Proofs.Code.TableCodec
import ClassPatch.Proofs.ConstantPool.Codec

/-!
# Class files are read back

A class that is written can be read again, if its pool is sound and the names that it is found by
can be looked up. What is read has the same parts; only the table of its pool is made anew.
-/

namespace ClassPatch

open Reader

/-! ### Members -/

namespace Member

theorem reads_encode {m : Member} {bytes : Bytes} (h : m.encode = .ok bytes) (pos : Nat)
    (back : Bytes) : Reads read pos bytes back m := by
  obtain ⟨attributes, hattributes, h⟩ := Except.bind_eq_ok.mp h
  obtain rfl := Except.pure_eq_ok.mp h
  simp only [List.append_assoc]
  refine (reads_word m.flags.bits pos _).bind ?_
  refine (reads_word m.name _ _).bind ?_
  refine (reads_word m.descriptor _ _).bind ?_
  exact (Attribute.reads_encodeList hattributes _ back).bind_pure

/-- A list of members is read back. -/
theorem reads_encodeList {limit : Nat → Limit} {members : List Member} {bytes : Bytes}
    (h : encodeList limit members = .ok bytes) (pos : Nat) (back : Bytes) :
    Reads readList pos bytes back members := by
  rw [encodeList] at h
  split at h
  · rename_i hcount
    obtain ⟨rows, hrows, h⟩ := Except.bind_eq_ok.mp h
    obtain rfl := Except.pure_eq_ok.mp h
    refine reads_readRows (Nat.lt_succ_of_le hcount) ?_
    exact (Except.mapM_eq_ok.mp hrows).flip.imp fun _ _ hrow => reads_encode hrow
  · exact absurd h Except.throw_ne_ok

end Member

namespace ClassFile

variable {c : ClassFile} {bytes : Bytes}

/-- The interfaces are read back. -/
theorem reads_encodeInterfaces {interfaces : List UInt16}
    (h : encodeInterfaces interfaces = .ok bytes) (pos : Nat) (back : Bytes) :
    Reads u16List pos bytes back interfaces := by
  rw [encodeInterfaces] at h
  split at h
  · rename_i hcount
    obtain rfl := Except.ok.inj h
    have hrows : List.Forall₂ (fun row index => ∀ pos back, Reads u16 pos row back index)
        (interfaces.map fun index => Word.encode index) interfaces := by
      rw [List.forall₂_map_left_iff, List.forall₂_same]
      exact fun index _ => reads_word index
    have hlength : (interfaces.flatMap fun index => Word.encode index).length =
        interfaces.length * 2 := by
      simp [List.length_flatMap, Word.length_encode, Word.width]
    refine (reads_word _ pos _).bind ?_
    rw [UInt16.toNat_ofNat_of_lt' (Nat.lt_succ_of_le hcount)]
    refine Reads.bind_nil (reads_ensure _ ?_) ?_
    · rw [List.length_append, hlength]
      exact Nat.le_add_right _ _
    · rw [List.flatMap_def]
      exact reads_times hrows
  · cases h

/-- The parts of a class are read back. -/
theorem reads_toBytes (hpool : c.pool.Sound) (h : c.toBytes = .ok bytes) :
    Reads read 0 bytes [] { c with pool := .ofSlots c.pool.slots } := by
  obtain ⟨pool, hencode, h⟩ := Except.bind_eq_ok.mp h
  obtain ⟨interfaces, hinterfaces, h⟩ := Except.bind_eq_ok.mp h
  obtain ⟨fields, hfields, h⟩ := Except.bind_eq_ok.mp h
  obtain ⟨methods, hmethods, h⟩ := Except.bind_eq_ok.mp h
  obtain ⟨attributes, hattributes, h⟩ := Except.bind_eq_ok.mp h
  obtain rfl := Except.pure_eq_ok.mp h
  simp only [List.append_assoc]
  refine (reads_word magic _ _).bind ?_
  refine .ite_neg (by simp) ?_
  refine (reads_word c.version.minor _ _).bind ?_
  refine (reads_word c.version.major _ _).bind ?_
  refine (ConstantPool.reads_encode hpool hencode _ _).bind ?_
  refine (reads_word c.flags.bits _ _).bind ?_
  refine (reads_word c.thisClass _ _).bind ?_
  refine (reads_word c.superClass _ _).bind ?_
  refine (reads_encodeInterfaces hinterfaces _ _).bind ?_
  refine (Member.reads_encodeList hfields _ _).bind ?_
  refine (Member.reads_encodeList hmethods _ _).bind ?_
  refine (Attribute.reads_encodeList hattributes _ _).bind_last ?_
  refine (reads_hasMore _ _).bind_nil ?_
  exact .pure _ _ _

/-- All names that a class is found by can be looked up. -/
theorem checkNames_eq_ok : c.checkNames = .ok () ↔
    (∃ s, c.name = .ok s) ∧ (∃ s, c.superName = .ok s) ∧
    (∀ i ∈ c.interfaces, ∃ s, c.pool.className i = .ok s) ∧
    ∀ m ∈ c.methods.toList,
      (∃ s, c.pool.text m.name = .ok s) ∧ ∃ s, c.pool.text m.descriptor = .ok s := by
  have hdiscard {α : Type} {x : Except Error α} : discard x = .ok () ↔ ∃ s, x = .ok s := by
    cases x <;> simp [discard, Functor.discard, Functor.mapConst, Except.map]
  simp only [checkNames, Except.check_bind_eq_ok, Except.forM_eq_ok, hdiscard]

/-- The names of a class can be looked up in a larger pool, and with other methods if theirs can. -/
theorem checkNames_mono {c' : ClassFile} (hpool : c.pool ≤ c'.pool)
    (hthis : c'.thisClass = c.thisClass) (hsuper : c'.superClass = c.superClass)
    (hinterfaces : c'.interfaces = c.interfaces)
    (hmethods : ∀ m ∈ c'.methods.toList,
      (∃ s, c'.pool.text m.name = .ok s) ∧ ∃ s, c'.pool.text m.descriptor = .ok s)
    (hnames : c.checkNames = .ok ()) : c'.checkNames = .ok () := by
  obtain ⟨⟨s, hname⟩, hsuperName, hlooked, -⟩ := checkNames_eq_ok.mp hnames
  refine checkNames_eq_ok.mpr ⟨⟨s, ?_⟩, ?_, fun i hi => ?_, hmethods⟩
  · rw [name, hthis]
    exact ConstantPool.className_mono hpool hname
  · rw [superName, hsuper]
    rw [superName] at hsuperName
    split at hsuperName
    · rwa [if_pos ‹_›]
    · rw [if_neg ‹_›]
      obtain ⟨found, hfound⟩ := hsuperName
      obtain ⟨t, ht, hsome⟩ := Except.map_eq_ok.mp hfound
      exact ⟨found, Except.map_eq_ok.mpr ⟨t, ConstantPool.className_mono hpool ht, hsome⟩⟩
  · rw [hinterfaces] at hi
    obtain ⟨t, ht⟩ := hlooked i hi
    exact ⟨t, ConstantPool.className_mono hpool ht⟩

/-- A class is what has been read, if all of its names can be looked up. -/
theorem ofBytes_eq_ok : ofBytes bytes = .ok c ↔
    read.parse bytes = .ok c ∧ c.checkNames = .ok () := by
  rw [ofBytes, Except.bind_eq_ok]
  constructor
  · rintro ⟨c', hread, h⟩
    obtain ⟨hnames, h⟩ := Except.check_bind_eq_ok.mp h
    obtain rfl := Except.pure_eq_ok.mp h
    exact ⟨hread, hnames⟩
  · rintro ⟨hread, hnames⟩
    exact ⟨c, hread, Except.check_bind_eq_ok.mpr ⟨hnames, rfl⟩⟩

/-- What has been read of a class can be looked up. -/
theorem names_of_ofBytes (h : ofBytes bytes = .ok c) : c.checkNames = .ok () :=
  (ofBytes_eq_ok.mp h).2

theorem gives_read : Gives read fun c => c.pool.WellFormed ∧ c.pool.Sound := by
  have hpool : Gives ConstantPool.read fun p => p.WellFormed ∧ p.Sound := fun _ _ _ h =>
    ⟨ConstantPool.wellFormed_of_read h, ConstantPool.sound_of_read h⟩
  refine .andThen fun word => .ite (fun _ => .fault_bind _) fun _ => ?_
  refine .andThen fun minor => .andThen fun major => hpool.bind fun pool hpool => ?_
  refine .andThen fun flags => .andThen fun thisClass => .andThen fun superClass => ?_
  refine .andThen fun interfaces => .andThen fun fields => .andThen fun methods => ?_
  refine .andThen fun attributes => .andThen fun more => ?_
  exact .ite (fun _ => .andThen fun _ => .fault_bind _) fun _ => .pure hpool

/-- The pool of a class that has been read is well formed and sound. -/
theorem pool_of_ofBytes (h : ofBytes bytes = .ok c) : c.pool.WellFormed ∧ c.pool.Sound := by
  obtain ⟨cursor, hread⟩ := exists_of_parse (ofBytes_eq_ok.mp h).1
  exact gives_read _ _ _ hread

/-- A class that is written is read back. -/
theorem ofBytes_of_toBytes (hpool : c.pool.Sound) (hnames : c.checkNames = .ok ())
    (h : c.toBytes = .ok bytes) : ofBytes bytes = .ok { c with pool := .ofSlots c.pool.slots } :=
  ofBytes_eq_ok.mpr ⟨(reads_toBytes hpool h).parse, hnames⟩

end ClassFile
end ClassPatch
