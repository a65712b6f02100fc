import ClassPatch.Proofs.Outcome
import ClassPatch.Registry.Builtin

/-!
# Histories of registries

A registry starts empty or with the families that are always known, and families and versions are
added to it in any order; a call that fails leaves it as it is. Along every such history the
versions of a family are numbered by their positions, the first of them is empty, and what has been
added under a number stays there.

Numbers have 32 bits. Behind the greatest number there is no other one, and a version that is added
there gets the greatest number again.
-/

namespace ClassPatch

/-- A call that adds to a registry. -/
inductive RegistryCall
  | addFamily (family description : String)
  | addVersion (family description : String) (patches : List Patch)

namespace Registry

/-- What a call answers: the registry with what has been added, and the number of a version. -/
def perform (r : Registry) : RegistryCall → Except Error (Registry × Option UInt32)
  | .addFamily family description => do return (← r.addFamily family description, none)
  | .addVersion family description patches => do
    let (r', version) ← r.addVersion family description patches
    return (r', some version)

/-- The registry after a call. -/
def after (r : Registry) (call : RegistryCall) : Registry :=
  match r.perform call with
  | .ok (r', _) => r'
  | .error _ => r

/-- The registry after calls. -/
def run (r : Registry) (calls : List RegistryCall) : Registry := calls.foldl after r

/-- The registries of all histories. -/
inductive Reachable : Registry → Prop
  | empty : Reachable empty
  | builtin : Reachable builtin
  | call {r : Registry} (h : Reachable r) (call : RegistryCall) : Reachable (r.after call)

theorem Reachable.run {r : Registry} (h : r.Reachable) (calls : List RegistryCall) :
    (r.run calls).Reachable := by
  induction calls generalizing r with
  | nil => exact h
  | cons call calls ih => exact ih (h.call call)

variable {r r' : Registry} {family family' description : String} {patches : List Patch}
  {versions : Array PatchSet} {version : UInt32} {set : PatchSet}

/-! ### Looking up -/

theorem mem_familyNames :
    family ∈ r.familyNames ↔ ∃ versions, r.families[family]? = some versions := by
  rw [familyNames, Std.TreeMap.mem_keys, Std.TreeMap.mem_iff_isSome_getElem?,
    Option.isSome_iff_exists]

theorem not_mem_familyNames : family ∉ r.familyNames ↔ r.families[family]? = none := by
  rw [mem_familyNames, ← Option.isSome_iff_exists, Option.not_isSome_iff_eq_none]

theorem nodup_familyNames (r : Registry) : r.familyNames.Nodup := Std.TreeMap.nodup_keys

theorem versions_eq_ok : r.versions family = .ok versions ↔
    r.families[family]? = some versions := by
  unfold Registry.versions
  split
  · rename_i heq
    simp [heq]
  · rename_i heq
    simp [heq]

theorem patchSet_eq (h : r.families[family]? = some versions) : r.patchSet family version =
    match versions[version.toNat]? with
    | some set => .ok set
    | none => .error (.unknownVersion family version) := by
  rw [patchSet, versions_eq_ok.mpr h]
  rfl

theorem patchSet_eq_ok : r.patchSet family version = .ok set ↔
    ∃ versions, r.families[family]? = some versions ∧ versions[version.toNat]? = some set := by
  constructor
  · intro h
    obtain ⟨versions, hversions, -⟩ := Except.bind_eq_ok.mp h
    have hfamily := versions_eq_ok.mp hversions
    refine ⟨versions, hfamily, ?_⟩
    rw [patchSet_eq hfamily] at h
    split at h
    · obtain rfl := Except.ok.inj h
      assumption
    · cases h
  · rintro ⟨versions, hfamily, hset⟩
    rw [patchSet_eq hfamily, hset]

theorem latestVersion_eq_ok : r.latestVersion family = .ok version ↔
    ∃ versions, r.families[family]? = some versions ∧
      nextVersion (versions.size - 1) = version := by
  simp only [latestVersion, Except.bind_eq_ok, versions_eq_ok, Except.pure_eq_ok]

/-! ### Numbers -/

theorem toNat_nextVersion (count : Nat) :
    (nextVersion count).toNat = min count (UInt32.size - 1) := by
  have hsize : UInt32.size = 2 ^ 32 := rfl
  rw [nextVersion, UInt32.toNat_ofNat', Nat.mod_eq_of_lt (by omega)]

theorem nextVersion_toNat (version : UInt32) : nextVersion version.toNat = version := by
  have hlt := version.toNat_lt
  have hsize : UInt32.size = 2 ^ 32 := rfl
  rw [← UInt32.toNat_inj, toNat_nextVersion]
  omega

/-- The versions of a family are numbered by their positions, and the first one is empty. -/
structure Numbered (family : String) (versions : Array PatchSet) : Prop where
  pos : 0 < versions.size
  first : ∀ set, versions[0]? = some set → set.patches = []
  number : ∀ (i : Nat) (set : PatchSet), versions[i]? = some set →
    set.family = family ∧ set.version = nextVersion i

theorem numbered_one (family description : String) :
    Numbered family #[⟨family, nextVersion 0, description, []⟩] where
  pos := Nat.one_pos
  first set h := by
    obtain rfl := Option.some.inj h
    rfl
  number i set h := by
    cases i with
    | zero =>
      obtain rfl := Option.some.inj h
      exact ⟨rfl, rfl⟩
    | succ i => simp at h

theorem Numbered.push (h : Numbered family versions) (description : String) (patches : List Patch) :
    Numbered family (versions.push ⟨family, nextVersion versions.size, description, patches⟩) where
  pos := by
    rw [Array.size_push]
    exact Nat.succ_pos _
  first set hset := by
    rw [Array.getElem?_push, if_neg (Nat.ne_of_lt h.pos)] at hset
    exact h.first set hset
  number i set hset := by
    rw [Array.getElem?_push] at hset
    split at hset
    · rename_i hlast
      obtain rfl := Option.some.inj hset
      exact ⟨rfl, hlast ▸ rfl⟩
    · exact h.number i set hset

/-- The versions that there are have the numbers up to the greatest one. -/
theorem Numbered.exists_iff (h : Numbered family versions) (version : UInt32) :
    (∃ set, versions[version.toNat]? = some set) ↔ version ≤ nextVersion (versions.size - 1) := by
  have hpos := h.pos
  have hlt := version.toNat_lt
  have hsize : UInt32.size = 2 ^ 32 := rfl
  rw [← Option.ne_none_iff_exists', ne_eq, Array.getElem?_eq_none_iff, UInt32.le_iff_toNat_le,
    toNat_nextVersion]
  omega

/-- Every family of the registry is numbered. -/
def Lawful (r : Registry) : Prop :=
  ∀ family versions, r.families[family]? = some versions → Numbered family versions

theorem getElem?_insert (family : String) (versions : Array PatchSet) (family' : String) :
    (r.families.insert family versions)[family']? =
      if family = family' then some versions else r.families[family']? := by
  simp only [Std.TreeMap.getElem?_insert, Std.LawfulEqCmp.compare_eq_iff_eq]

theorem Lawful.insert (h : r.Lawful) (hnumbered : Numbered family versions) :
    Lawful ⟨r.families.insert family versions⟩ := by
  intro family' versions' hget
  rw [getElem?_insert] at hget
  split at hget
  · rename_i heq
    obtain rfl := Option.some.inj hget
    exact heq ▸ hnumbered
  · exact h family' versions' hget

theorem lawful_empty : empty.Lawful := by
  intro family versions h
  simp [empty] at h

theorem Lawful.withFamily (h : r.Lawful) (family description : String)
    (more : List (String × List Patch)) :
    (r.withFamily family ((description, []) :: more)).Lawful := by
  refine h.insert ⟨by simp, fun set hset => ?_, fun i set hset => ?_⟩
  · obtain rfl := by simpa using hset
    rfl
  · rw [List.getElem?_toArray, List.getElem?_map, List.getElem?_zipIdx] at hset
    obtain ⟨row, hrow, rfl⟩ := Option.map_eq_some_iff.mp hset
    obtain ⟨version, -, rfl⟩ := Option.map_eq_some_iff.mp hrow
    rw [Nat.zero_add]
    exact ⟨rfl, rfl⟩

theorem lawful_builtin : builtin.Lawful :=
  (lawful_empty.withFamily _ _ _).withFamily _ _ _

/-! ### Adding -/

/-- What a call does: nothing, or it puts a version behind those of a family, which is new only if
the version is its empty one. -/
theorem after_cases (r : Registry) (call : RegistryCall) : r.after call = r ∨
    ∃ versions family description patches,
      r.after call = r.append versions family description patches ∧
        (r.families[family]? = some versions ∨
          r.families[family]? = none ∧ versions = #[] ∧ patches = []) := by
  cases call with
  | addFamily family description =>
    by_cases hfamily : family ∈ r.families
    · exact .inl (by simp [after, perform, addFamily, hfamily, Bind.bind, Except.bind])
    · refine .inr ⟨#[], family, description, [], ?_, .inr ⟨?_, rfl, rfl⟩⟩
      · simp [after, perform, addFamily, hfamily, Bind.bind, Except.bind, Pure.pure, Except.pure]
      · rwa [← not_mem_familyNames, familyNames, Std.TreeMap.mem_keys]
  | addVersion family description patches =>
    cases hfamily : r.families[family]? with
    | none =>
      exact .inl
        (by simp [after, perform, addVersion, Registry.versions, hfamily, Bind.bind, Except.bind])
    | some versions =>
      refine .inr ⟨versions, family, description, patches, ?_, .inl hfamily⟩
      simp [after, perform, addVersion, Registry.versions, hfamily, Bind.bind, Except.bind,
        Pure.pure, Except.pure]

theorem Lawful.after (h : r.Lawful) (call : RegistryCall) : (r.after call).Lawful := by
  obtain heq | ⟨versions, family, description, patches, heq, hfamily | ⟨-, rfl, rfl⟩⟩ :=
    r.after_cases call
  · rwa [heq]
  · rw [heq]
    exact h.insert ((h family versions hfamily).push description patches)
  · rw [heq]
    exact h.insert (numbered_one family description)

theorem Reachable.lawful (h : r.Reachable) : r.Lawful := by
  induction h with
  | empty => exact lawful_empty
  | builtin => exact lawful_builtin
  | call _ call ih => exact ih.after call

/-- A call changes no version that there is. -/
theorem patchSet_after (h : r.patchSet family version = .ok set) (call : RegistryCall) :
    (r.after call).patchSet family version = .ok set := by
  obtain ⟨before, hbefore, hset⟩ := patchSet_eq_ok.mp h
  obtain heq | ⟨versions, family', description, patches, heq, hfamily⟩ := r.after_cases call
  · rwa [heq]
  · rw [heq, patchSet_eq_ok, append]
    by_cases hsame : family' = family
    · subst hsame
      obtain hfamily | ⟨hnone, -⟩ := hfamily
      · obtain rfl := Option.some.inj (hfamily.symm.trans hbefore)
        refine ⟨_, by rw [getElem?_insert, if_pos rfl], ?_⟩
        rw [Array.getElem?_push, if_neg, hset]
        exact Nat.ne_of_lt (Array.getElem?_eq_some_iff.mp hset).1
      · cases hnone.symm.trans hbefore
    · exact ⟨before, by rw [getElem?_insert, if_neg hsame, hbefore], hset⟩

theorem patchSet_run (h : r.patchSet family version = .ok set) (calls : List RegistryCall) :
    (r.run calls).patchSet family version = .ok set := by
  induction calls generalizing r with
  | nil => exact h
  | cons call calls ih => exact ih (patchSet_after h call)

/-! ### What every history keeps -/

/-- What holds of a registry and of the calls that add to it. -/
structure Stable (r : Registry) : Prop where
  /-- Version zero of a family is empty. -/
  zero : ∀ family ∈ r.familyNames, ∃ set, r.patchSet family 0 = .ok set ∧ set.patches = []
  /-- A family has the versions up to its latest one, and no others. -/
  numbered : ∀ family ∈ r.familyNames, ∃ latest, r.latestVersion family = .ok latest ∧
    ∀ version : UInt32,
      (version ≤ latest → ∃ set, r.patchSet family version = .ok set ∧ set.family = family ∧
        set.version = version) ∧
      (latest < version → r.patchSet family version = .error (.unknownVersion family version))
  /-- A family is refused if there is one of this name, and only then. -/
  addFamily : ∀ family description e, r.addFamily family description = .error e ↔
    family ∈ r.familyNames ∧ e = .invalidConfig (.duplicateFamily family)
  /-- A version is refused if there is no family of this name, and only then. -/
  addVersion : ∀ family description patches e,
    r.addVersion family description patches = .error e ↔
      family ∉ r.familyNames ∧ e = .unknownFamily family
  /-- Otherwise it gets the number behind the latest one, as long as there is another number, and is
  the latest one from then on. -/
  next : ∀ family description patches r' version,
    r.addVersion family description patches = .ok (r', version) →
      ∃ latest, r.latestVersion family = .ok latest ∧
        version.toNat = min (latest.toNat + 1) (UInt32.size - 1) ∧
        r'.latestVersion family = .ok version ∧
        (latest < version →
          r'.patchSet family version = .ok ⟨family, version, description, patches⟩)
  /-- A refused call changes nothing. -/
  refused : ∀ call e, r.perform call = .error e → r.after call = r
  /-- Calls change no version that there is. -/
  kept : ∀ calls family version set, r.patchSet family version = .ok set →
    (r.run calls).patchSet family version = .ok set

theorem Lawful.exists_versions (h : r.Lawful) (hfamily : family ∈ r.familyNames) :
    ∃ versions, r.families[family]? = some versions ∧ Numbered family versions := by
  obtain ⟨versions, hversions⟩ := mem_familyNames.mp hfamily
  exact ⟨versions, hversions, h family versions hversions⟩

/-- A version is found under its family and number. -/
theorem Lawful.of_patchSet (h : r.Lawful) (hset : r.patchSet family version = .ok set) :
    set.family = family ∧ set.version = version := by
  obtain ⟨versions, hversions, hset⟩ := patchSet_eq_ok.mp hset
  obtain ⟨hfamily, hnumber⟩ := (h family versions hversions).number _ set hset
  exact ⟨hfamily, hnumber.trans (nextVersion_toNat version)⟩

theorem Lawful.zero (h : r.Lawful) (hfamily : family ∈ r.familyNames) :
    ∃ set, r.patchSet family 0 = .ok set ∧ set.patches = [] := by
  obtain ⟨versions, hversions, hnumbered⟩ := h.exists_versions hfamily
  have hpos := hnumbered.pos
  have hset : versions[0]? = some versions[0] := Array.getElem?_eq_getElem hpos
  exact ⟨_, patchSet_eq_ok.mpr ⟨versions, hversions, hset⟩, hnumbered.first _ hset⟩

theorem Lawful.numbered (h : r.Lawful) (hfamily : family ∈ r.familyNames) :
    ∃ latest, r.latestVersion family = .ok latest ∧ ∀ version : UInt32,
      (version ≤ latest → ∃ set, r.patchSet family version = .ok set ∧ set.family = family ∧
        set.version = version) ∧
      (latest < version → r.patchSet family version = .error (.unknownVersion family version)) := by
  obtain ⟨versions, hversions, hnumbered⟩ := h.exists_versions hfamily
  refine ⟨_, latestVersion_eq_ok.mpr ⟨versions, hversions, rfl⟩, fun version => ⟨fun hle => ?_,
    fun hlt => ?_⟩⟩
  · obtain ⟨set, hset⟩ := (hnumbered.exists_iff version).mpr hle
    replace hset := patchSet_eq_ok.mpr ⟨versions, hversions, hset⟩
    exact ⟨set, hset, h.of_patchSet hset⟩
  · rw [patchSet_eq hversions]
    cases hset : versions[version.toNat]? with
    | none => rfl
    | some set =>
      have hle := (hnumbered.exists_iff version).mp ⟨set, hset⟩
      exact absurd hlt (UInt32.not_lt.mpr hle)

theorem addFamily_eq_error {e : Error} : r.addFamily family description = .error e ↔
    family ∈ r.familyNames ∧ e = .invalidConfig (.duplicateFamily family) := by
  rw [familyNames, Std.TreeMap.mem_keys, addFamily]
  split
  · rename_i hfamily
    simp [hfamily, eq_comm]
  · rename_i hfamily
    simp [hfamily]

theorem addVersion_eq_error {e : Error} : r.addVersion family description patches = .error e ↔
    family ∉ r.familyNames ∧ e = .unknownFamily family := by
  rw [not_mem_familyNames, addVersion, Registry.versions]
  cases hfamily : r.families[family]? with
  | none => simp [Bind.bind, Except.bind, eq_comm]
  | some versions => simp [Bind.bind, Except.bind, Pure.pure, Except.pure]

theorem addVersion_eq_ok : r.addVersion family description patches = .ok (r', version) ↔
    ∃ versions, r.families[family]? = some versions ∧
      r' = r.append versions family description patches ∧ version = nextVersion versions.size := by
  simp only [addVersion, Except.bind_eq_ok, versions_eq_ok, Except.pure_eq_ok, Prod.mk.injEq,
    eq_comm (a := r'), eq_comm (a := version)]

theorem Lawful.next (h : r.Lawful)
    (hadd : r.addVersion family description patches = .ok (r', version)) :
    ∃ latest, r.latestVersion family = .ok latest ∧
      version.toNat = min (latest.toNat + 1) (UInt32.size - 1) ∧
      r'.latestVersion family = .ok version ∧
      (latest < version →
        r'.patchSet family version = .ok ⟨family, version, description, patches⟩) := by
  obtain ⟨versions, hversions, rfl, rfl⟩ := addVersion_eq_ok.mp hadd
  have hpos := (h family versions hversions).pos
  have hnew : (r.append versions family description patches).families[family]? =
      some (versions.push ⟨family, nextVersion versions.size, description, patches⟩) := by
    rw [append, getElem?_insert, if_pos rfl]
  refine ⟨_, latestVersion_eq_ok.mpr ⟨versions, hversions, rfl⟩, ?_,
    latestVersion_eq_ok.mpr ⟨_, hnew, ?_⟩, fun hlt => patchSet_eq_ok.mpr ⟨_, hnew, ?_⟩⟩
  · rw [toNat_nextVersion, toNat_nextVersion]
    omega
  · rw [Array.size_push, Nat.add_sub_cancel]
  · -- the version is new, so its number is its position
    have hsize : (nextVersion versions.size).toNat = versions.size := by
      rw [UInt32.lt_iff_toNat_lt, toNat_nextVersion, toNat_nextVersion] at hlt
      rw [toNat_nextVersion]
      omega
    rw [hsize, Array.getElem?_push, if_pos rfl]

theorem after_of_refused {call : RegistryCall} {e : Error} (h : r.perform call = .error e) :
    r.after call = r := by
  rw [after, h]

/-- Along every history the versions of a family are numbered without a gap, and no call changes
what has been added. -/
theorem stable_of_reachable (h : r.Reachable) : r.Stable where
  zero _ hfamily := h.lawful.zero hfamily
  numbered _ hfamily := h.lawful.numbered hfamily
  addFamily _ _ _ := addFamily_eq_error
  addVersion _ _ _ _ := addVersion_eq_error
  next _ _ _ _ _ hadd := h.lawful.next hadd
  refused _ _ hrefused := after_of_refused hrefused
  kept calls _ _ _ hset := patchSet_run hset calls

/-- Calls of which the third and the last one are refused. -/
private def growing : List RegistryCall :=
  [.addFamily "demo" "Apply no patches related to demo", .addVersion "spring" "Again"
    [noClassAccess], .addFamily "log4j" "Another one", .addVersion "demo" "First" [noLookup],
    .addVersion "missing" "First" []]

theorem stable_of_reachable_growing :
    (builtin.run growing).Reachable ∧ (builtin.run growing).Stable ∧
      (builtin.run growing).familyNames = ["demo", "log4j", "spring"] ∧
      (builtin.run growing).latestVersion "demo" = .ok 1 ∧
      (builtin.run growing).latestVersion "log4j" = .ok 1 ∧
      (builtin.run growing).patchSet "spring" 3 = .ok ⟨"spring", 3, "Again", [noClassAccess]⟩ := by
  have h := Reachable.builtin.run growing
  exact ⟨h, stable_of_reachable h, by cbv, by cbv, by cbv, by cbv⟩

end Registry
end ClassPatch
