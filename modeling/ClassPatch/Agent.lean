import ClassPatch.Dispatch

/-!
# Agents

An agent is attached to a running program and patches the classes that the program loads. The
program keeps a record of the version applied of each family. A family whose recorded version is
at least the requested one is skipped, so attaching again is harmless. The record is written when
the agent commits.
-/

namespace ClassPatch

/-- The applied version of each family. -/
abbrev VersionRecord := Std.TreeMap String UInt32

/-- An agent attached to a program. -/
structure Agent where
  dispatcher : Dispatcher
  /-- The families that the agent patches, with their versions. -/
  pending : List (String × UInt32)
  /-- The number of classes seen that some patch is for. -/
  targetsSeen : Nat

/-- A class that is loaded or redefined. -/
structure LoadedClass where
  event : ClassEvent
  name : String
  bytes : Bytes

namespace Agent

/-- A recorded version of the family makes the set superfluous. -/
def appliedVersion? (record : VersionRecord) (set : PatchSet) : Option UInt32 :=
  record[set.family]?.filter fun applied => set.version ≤ applied

/-- The patches of a set that are not left out, with a notice for each patch. -/
def choosePatches (config : Config) (set : PatchSet) : LogM (List Patch) :=
  set.patches.filterM fun p =>
    if config.isDisabled p.name then do
      LogM.note (.disabled p.name)
      return false
    else do
      LogM.note (.loading p.name)
      return true

/-- Takes a set on unless it is recorded as applied. -/
def takeOn (config : Config) (record : VersionRecord) (agent : Agent) (set : PatchSet) :
    LogM Agent := do
  match appliedVersion? record set with
  | some applied =>
    LogM.note (.alreadyApplied set.family applied)
    return agent
  | none =>
    let chosen ← choosePatches config set
    return { agent with
      dispatcher := ⟨agent.dispatcher.patches ++ chosen⟩
      pending := agent.pending ++ [(set.family, set.version)] }

/-- Attaches an agent to a program with a record. -/
def attach (config : Config) (registry : Registry) (record : VersionRecord) : LogM Agent := do
  let sets ← LogM.ofExcept (config.enabledSets registry)
  let agent ← sets.foldlM (takeOn config record) ⟨⟨[]⟩, [], 0⟩
  if agent.pending.isEmpty then
    LogM.note .nothingPending
  return agent

/-- Counts further classes that some patch is for. -/
def see (agent : Agent) (count : Nat) : Agent :=
  { agent with targetsSeen := agent.targetsSeen + count }

/-- Offers a class to the agent. -/
def offer (agent : Agent) (c : LoadedClass) : StateM Log (HostAnswer × Agent) := do
  match agent.dispatcher.find? c.name with
  | none => return (← agent.dispatcher.transform c.name c.bytes, agent)
  | some p =>
    modify (·.push (.matched c.event c.name p.name))
    return (← agent.dispatcher.transform c.name c.bytes, agent.see 1)

/-- Offers the classes that are loaded already. -/
def offerLoaded (agent : Agent) (loaded : List LoadedClass) :
    StateM Log (List HostAnswer × Agent) := do
  let targets := loaded.countP fun c => agent.dispatcher.isTarget c.name
  if targets = 0 then
    modify (·.push .noTargets)
  let results ← agent.dispatcher.transformAll (loaded.map fun c => (c.name, c.bytes))
  return (results, agent.see targets)

/-- The record after the agent has committed, and the notices of it. -/
def commit (agent : Agent) (record : VersionRecord) : StateM Log VersionRecord :=
  agent.pending.foldlM (fun record (family, version) => do
    modify (·.push (.recorded family version))
    return record.insert family version) record

end Agent
end ClassPatch
