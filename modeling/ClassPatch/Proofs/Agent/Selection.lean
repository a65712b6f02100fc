import ClassPatch.Agent
import ClassPatch.Proofs.Evaluation
import ClassPatch.Proofs.Registry.History
import Mathlib.Data.List.Nodup

/-!
# What an agent takes on

A configuration asks for one set of patches of each family. An agent looks at these sets in the
order of the families and takes on those that are due: no version is recorded of the family, or one
below the requested version. So its patches are those that the configuration enables, without the
families that are not due, and after it has committed no family is due.
-/

namespace ClassPatch

namespace Config

/-- The set of a family that is asked for. -/
def requestedSet (config : Config) (registry : Registry) (family : String) :
    Except Error PatchSet := do
  registry.patchSet family (← config.version registry family)

/-- The patches of a set that are not left out. -/
def kept (config : Config) (set : PatchSet) : List Patch :=
  set.patches.filter fun p => !config.isDisabled p.name

/-- The patches that are applied for a family. -/
def portion (config : Config) (registry : Registry) (family : String) : List Patch :=
  match config.requestedSet registry family with
  | .ok set => config.kept set
  | .error _ => []

/-- No version is recorded of the family, or one below the requested version. -/
def isDue (config : Config) (registry : Registry) (record : VersionRecord) (family : String) :
    Bool :=
  match config.version registry family with
  | .ok version => record[family]?.all fun applied => applied < version
  | .error _ => false

variable {config : Config} {registry : Registry} {record : VersionRecord} {family : String}
  {set : PatchSet} {sets : List PatchSet} {patches : List Patch} {e : Error}

theorem enabledSets_eq_ok (h : config.enabledSets registry = .ok sets) :
    List.Forall₂ (fun family set => config.requestedSet registry family = .ok set)
      registry.familyNames sets := by
  rw [enabledSets] at h
  split at h
  · cases h
  · exact Except.mapM_eq_ok.mp h

theorem enabledPatches_eq_ok : config.enabledPatches registry = .ok patches ↔
    ∃ sets, config.enabledSets registry = .ok sets ∧ sets.flatMap config.kept = patches := by
  simp only [enabledPatches, Except.bind_eq_ok, Except.pure_eq_ok, List.filter_flatMap]
  rfl

theorem portion_eq (h : config.requestedSet registry family = .ok set) :
    config.portion registry family = config.kept set := by
  rw [portion, h]

/-- The set that is asked for has the name of the family and the requested version. -/
theorem requestedSet_eq_ok (hregistry : registry.Lawful)
    (h : config.requestedSet registry family = .ok set) :
    set.family = family ∧ config.version registry family = .ok set.version := by
  obtain ⟨version, hversion, hset⟩ := Except.bind_eq_ok.mp h
  obtain ⟨hfamily, hnumber⟩ := hregistry.of_patchSet hset
  exact ⟨hfamily, hnumber ▸ hversion⟩

theorem isDue_eq (hregistry : registry.Lawful) (h : config.requestedSet registry family = .ok set)
    (record : VersionRecord) :
    config.isDue registry record family = (Agent.appliedVersion? record set).isNone := by
  obtain ⟨rfl, hversion⟩ := requestedSet_eq_ok hregistry h
  rw [isDue, hversion, Agent.appliedVersion?]
  cases record[set.family]? with
  | none => rfl
  | some applied => simp [Option.filter_some, apply_ite, ← decide_not]

end Config

/-- What is recorded once a set has been applied. -/
def PatchSet.versionRow (set : PatchSet) : String × UInt32 := (set.family, set.version)

namespace Agent

variable {config : Config} {registry : Registry} {record : VersionRecord} {set : PatchSet}
  {sets : List PatchSet} {e : Error}

/-! ### Attaching -/

/-- The agent with a set taken on. -/
def taking (config : Config) (agent : Agent) (set : PatchSet) : Agent :=
  { agent with
    dispatcher := ⟨agent.dispatcher.patches ++ config.kept set⟩
    pending := agent.pending ++ [set.versionRow] }

/-- The sets that are not recorded as applied. -/
def newSets (record : VersionRecord) (sets : List PatchSet) : List PatchSet :=
  sets.filter fun set => (appliedVersion? record set).isNone

theorem exists_choosePatches (config : Config) (set : PatchSet) (log : Log) :
    ∃ log', choosePatches config set log = .ok (config.kept set) log' := by
  refine EStateM.exists_filterM (fun p log => ?_) set.patches log
  cases hdisabled : config.isDisabled p.name <;> exact ⟨_, rfl⟩

/-- Looking at a set never fails. -/
theorem exists_takeOn (config : Config) (record : VersionRecord) (agent : Agent) (set : PatchSet)
    (log : Log) : ∃ log', takeOn config record agent set log = .ok
      (match appliedVersion? record set with
        | some _ => agent
        | none => agent.taking config set) log' := by
  rw [takeOn]
  cases appliedVersion? record set with
  | some applied => exact ⟨_, rfl⟩
  | none =>
    obtain ⟨log', hchosen⟩ := exists_choosePatches config set log
    exact ⟨log', EStateM.bind_eq_ok.mpr ⟨_, log', hchosen, rfl⟩⟩

theorem exists_foldlM_takeOn (config : Config) (record : VersionRecord) (sets : List PatchSet)
    (agent : Agent) (log : Log) : ∃ log', sets.foldlM (takeOn config record) agent log =
      .ok ((newSets record sets).foldl (taking config) agent) log' := by
  induction sets generalizing agent log with
  | nil => exact ⟨log, rfl⟩
  | cons set sets ih =>
    obtain ⟨log₁, htake⟩ := exists_takeOn config record agent set log
    cases hnew : appliedVersion? record set with
    | some applied =>
      rw [hnew] at htake
      obtain ⟨log', hsets⟩ := ih agent log₁
      refine ⟨log', EStateM.bind_eq_ok.mpr ⟨_, log₁, htake, ?_⟩⟩
      rwa [newSets, List.filter_cons_of_neg (by simp [hnew])]
    | none =>
      rw [hnew] at htake
      obtain ⟨log', hsets⟩ := ih (agent.taking config set) log₁
      refine ⟨log', EStateM.bind_eq_ok.mpr ⟨_, log₁, htake, ?_⟩⟩
      rwa [newSets, List.filter_cons_of_pos (by simp [hnew])]

theorem foldl_taking (config : Config) (sets : List PatchSet) (agent : Agent) :
    sets.foldl (taking config) agent =
      ⟨⟨agent.dispatcher.patches ++ sets.flatMap config.kept⟩,
        agent.pending ++ sets.map PatchSet.versionRow, agent.targetsSeen⟩ := by
  induction sets generalizing agent with
  | nil => simp
  | cons set sets ih =>
    rw [List.foldl_cons, ih]
    simp [taking]

/-- What is attached if the sets that are asked for exist. -/
theorem exists_attach (h : config.enabledSets registry = .ok sets) (record : VersionRecord)
    (log : Log) : ∃ log', attach config registry record log = .ok
      ⟨⟨(newSets record sets).flatMap config.kept⟩,
        (newSets record sets).map PatchSet.versionRow, 0⟩ log' := by
  obtain ⟨log₁, hsets⟩ := exists_foldlM_takeOn config record sets ⟨⟨[]⟩, [], 0⟩ log
  rw [foldl_taking, List.nil_append, List.nil_append] at hsets
  have hstart : LogM.ofExcept (config.enabledSets registry) log = .ok sets log := by
    rw [h]
    rfl
  have hend (agent : Agent) : ∃ log', (do
      if agent.pending.isEmpty then
        LogM.note .nothingPending
      return agent : LogM Agent) log₁ = .ok agent log' := by
    split <;> exact ⟨_, rfl⟩
  obtain ⟨log', hend⟩ := hend _
  exact ⟨log', EStateM.bind_eq_ok.mpr
    ⟨sets, log, hstart, EStateM.bind_eq_ok.mpr ⟨_, log₁, hsets, hend⟩⟩⟩

theorem attach_eq_ok {agent : Agent} {log log' : Log}
    (h : attach config registry record log = .ok agent log') :
    ∃ sets, config.enabledSets registry = .ok sets ∧
      agent = ⟨⟨(newSets record sets).flatMap config.kept⟩,
        (newSets record sets).map PatchSet.versionRow, 0⟩ := by
  cases hsets : config.enabledSets registry with
  | error e =>
    rw [attach, hsets] at h
    cases h
  | ok sets =>
    obtain ⟨log₁, hattach⟩ := exists_attach hsets record log
    obtain ⟨rfl, -⟩ := EStateM.Result.ok.inj (h.symm.trans hattach)
    exact ⟨sets, rfl, rfl⟩

/-! ### Committing -/

theorem commit_run (agent : Agent) (record : VersionRecord) (log : Log) :
    ((agent.commit record).run log).1 = record.insertMany agent.pending := by
  obtain ⟨dispatcher, pending, targetsSeen⟩ := agent
  induction pending generalizing record log with
  | nil => exact Std.TreeMap.insertMany_nil.symm
  | cons row rows ih =>
    rw [Std.TreeMap.insertMany_cons]
    exact ih ..

/-- Once an agent has committed, none of the sets that it has looked at is new. -/
theorem newSets_insertMany (h : (sets.map PatchSet.family).Nodup) (record : VersionRecord) :
    newSets (record.insertMany ((newSets record sets).map PatchSet.versionRow)) sets = [] := by
  rw [newSets, List.filter_eq_nil_iff]
  intro set hset
  by_cases hnew : set ∈ newSets record sets
  · have hrow : (set.family, set.version) ∈ (newSets record sets).map PatchSet.versionRow :=
      List.mem_map_of_mem hnew
    have hdistinct : ((newSets record sets).map PatchSet.versionRow).Pairwise
        fun row row' => compare row.1 row'.1 ≠ .eq := by
      rw [List.pairwise_map]
      refine (List.pairwise_map.mp h).filter _ |>.imp fun hne heq => hne ?_
      exact Std.LawfulEqCmp.compare_eq_iff_eq.mp heq
    have hrecorded := Std.TreeMap.getElem?_insertMany_list_of_mem (t := record)
      Std.ReflCmp.compare_self hdistinct hrow
    rw [appliedVersion?, hrecorded]
    simp
  · have hother : (((newSets record sets).map PatchSet.versionRow).map Prod.fst).contains
        set.family = false := by
      rw [List.contains_eq_mem, decide_eq_false_iff_not, List.map_map, List.mem_map]
      rintro ⟨set', hset', hfamily⟩
      obtain rfl := List.inj_on_of_nodup_map h (List.mem_filter.mp hset').1 hset hfamily
      exact hnew hset'
    rw [appliedVersion?, Std.TreeMap.getElem?_insertMany_list_of_contains_eq_false hother]
    intro hnone
    exact hnew (List.mem_filter.mpr ⟨hset, hnone⟩)

/-! ### Both ways to select -/

/-- What an agent has taken on of what a configuration enables, and that it is all. -/
structure Selects (config : Config) (registry : Registry) (record : VersionRecord)
    (agent : Agent) : Prop where
  /-- The enabled patches are those of every family. -/
  enabled : config.enabledPatches registry =
    .ok (registry.familyNames.flatMap (config.portion registry))
  /-- Those of the agent are the ones of the families that are due. -/
  patches : agent.dispatcher.patches =
    (registry.familyNames.filter (config.isDue registry record)).flatMap (config.portion registry)
  /-- Each of these families is pending in the requested version. -/
  pending : ((registry.familyNames.filter (config.isDue registry record)).mapM fun family => do
    return (family, ← config.version registry family)) = .ok agent.pending
  /-- After a commit there is nothing left to be taken on. -/
  again : ∀ log log', ∃ agent' log'',
    attach config registry ((agent.commit record).run log).1 log' = .ok agent' log'' ∧
      agent'.pending = [] ∧ agent'.dispatcher.patches = []

theorem selects_of_attach (hregistry : registry.Lawful) {agent : Agent} {log log' : Log}
    (h : attach config registry record log = .ok agent log') :
    agent.Selects config registry record := by
  obtain ⟨sets, hsets, rfl⟩ := attach_eq_ok h
  have hrequested := Config.enabledSets_eq_ok hsets
  have hdue : List.Forall₂ (fun family set => config.requestedSet registry family = .ok set)
      (registry.familyNames.filter (config.isDue registry record)) (newSets record sets) := by
    refine List.rel_filter (fun family set hset => ?_) hrequested
    exact Bool.eq_iff_iff.mp (Config.isDue_eq hregistry hset record)
  refine ⟨?_, ?_, ?_, fun log log' => ?_⟩
  · refine Config.enabledPatches_eq_ok.mpr ⟨sets, hsets, hrequested.flatMap_eq ?_⟩
    exact fun _ _ _ _ hset => (Config.portion_eq hset).symm
  · exact hdue.flatMap_eq fun _ _ _ _ hset => (Config.portion_eq hset).symm
  · rw [Except.mapM_eq_ok, List.forall₂_map_right_iff]
    refine hdue.imp fun family set hset => ?_
    obtain ⟨rfl, hversion⟩ := Config.requestedSet_eq_ok hregistry hset
    exact Except.bind_eq_ok.mpr ⟨set.version, hversion, rfl⟩
  · have hfamilies : (sets.map PatchSet.family).Nodup := by
      rw [hrequested.map_eq fun _ _ hset => (Config.requestedSet_eq_ok hregistry hset).1,
        List.map_id']
      exact registry.nodup_familyNames
    obtain ⟨log'', hagain⟩ := exists_attach hsets _ log'
    rw [newSets_insertMany hfamilies] at hagain
    exact ⟨_, log'', by rw [commit_run, hagain], rfl, rfl⟩

/-- An agent attaches if and only if the configuration can enable patches, and has those of the
families that are due. -/
theorem attach_iff_enabledPatches (h : registry.Reachable) (config : Config)
    (record : VersionRecord) (log : Log) :
    ((∃ agent log', attach config registry record log = .ok agent log') ↔
      ∃ patches, config.enabledPatches registry = .ok patches) ∧
    ∀ agent log', attach config registry record log = .ok agent log' →
      agent.Selects config registry record := by
  refine ⟨⟨?_, ?_⟩, fun agent log' => selects_of_attach h.lawful⟩
  · rintro ⟨agent, log', hattach⟩
    obtain ⟨sets, hsets, -⟩ := attach_eq_ok hattach
    exact ⟨_, Config.enabledPatches_eq_ok.mpr ⟨sets, hsets, rfl⟩⟩
  · rintro ⟨patches, hpatches⟩
    obtain ⟨sets, hsets, -⟩ := Config.enabledPatches_eq_ok.mp hpatches
    obtain ⟨log', hattach⟩ := exists_attach hsets record log
    exact ⟨_, log', hattach⟩

/-- Asks for the first version of a family, and for the latest one of the others. -/
private def older : Config := .ofSettings [.version "spring" 1]

/-- The first version of the family has been applied. -/
private def applied : VersionRecord := .insert ∅ "spring" 1

theorem attach_iff_enabledPatches_applied :
    Registry.builtin.Reachable ∧
      older.enabledPatches .builtin = .ok [Registry.noLookup, Registry.noClassAccess] ∧
      ∃ agent log, attach older .builtin applied #[] = .ok agent log ∧
        agent.dispatcher.patches = [Registry.noLookup] ∧ agent.pending = [("log4j", 1)] ∧
        agent.Selects older .builtin applied := by
  refine ⟨.builtin, by cbv, _, _, by cbv, by cbv, by cbv, ?_⟩
  exact (attach_iff_enabledPatches .builtin older applied #[]).2 _ _ (by cbv)

end Agent
end ClassPatch
