import ClassPatch.Proofs.Agent.Selection

/-!
# Agents that share a record

Any number of agents attach to one program and commit to its record, each with a configuration and a
registry of its own. An agent reads the record when it looks at a set of patches, and writes it once
for each version that it commits, so an attachment is as many steps as there are sets and a commit
as many as there are versions. A schedule is any order of such steps. Where the steps of an
attachment or of a commit follow each other directly, they do what `Agent.attach` and `Agent.commit`
do.
-/

namespace ClassPatch

/-- An agent that has sets left to look at, or is attached. -/
inductive Attachment
  | looking (config : Config) (left : List PatchSet) (agent : Agent)
  | attached (agent : Agent)

/-- A commit of an agent, whose pending versions are those that are left to be recorded. -/
structure Commit where
  owner : Nat
  agent : Agent

/-- What is done with the version of a family: an agent finds no version in its way and takes it on,
or records it. -/
inductive VersionEvent
  | taken (owner : Nat) (family : String) (version : UInt32)
  | recorded (owner : Nat) (family : String) (version : UInt32)

/-- A program with its record, the agents and their commits, each in the order of their start. -/
structure Host where
  record : VersionRecord
  log : Log
  attachments : List Attachment
  commits : List Commit
  history : List VersionEvent

/-- A step of some agent. -/
inductive HostAction
  | attach (config : Config) (registry : Registry)
  | look (owner : Nat)
  | commit (owner : Nat)
  | record (commit : Nat)

namespace Host

/-- A program that no agent has come to. -/
def initial (record : VersionRecord) (log : Log) : Host := ⟨record, log, [], [], []⟩

/-- The events of looking at a set. -/
def taking (record : VersionRecord) (owner : Nat) (set : PatchSet) : List VersionEvent :=
  match Agent.appliedVersion? record set with
  | some _ => []
  | none => [.taken owner set.family set.version]

/-- One step. A step that is not possible changes nothing. -/
def step (host : Host) : HostAction → Host
  | .attach config registry =>
    match config.enabledSets registry with
    | .ok sets =>
      { host with attachments := host.attachments ++ [.looking config sets ⟨⟨[]⟩, [], 0⟩] }
    | .error _ => host
  | .look owner =>
    match host.attachments[owner]? with
    | some (.looking config (set :: left) agent) =>
      match agent.takeOn config host.record set host.log with
      | .ok agent log =>
        { host with
          log
          attachments := host.attachments.set owner (.looking config left agent)
          history := host.history ++ taking host.record owner set }
      | .error _ log => { host with log }
    | some (.looking _ [] agent) =>
      { host with
        log := if agent.pending.isEmpty then host.log.push .nothingPending else host.log
        attachments := host.attachments.set owner (.attached agent) }
    | _ => host
  | .commit owner =>
    match host.attachments[owner]? with
    | some (.attached agent) => { host with commits := host.commits ++ [⟨owner, agent⟩] }
    | _ => host
  | .record commit =>
    match host.commits[commit]? with
    | some ⟨owner, agent⟩ =>
      match agent.pending with
      | (family, version) :: left =>
        let (record, log) :=
          ({ agent with pending := [(family, version)] }.commit host.record).run host.log
        { host with
          record
          log
          commits := host.commits.set commit ⟨owner, { agent with pending := left }⟩
          history := host.history ++ [.recorded owner family version] }
      | [] => host
    | none => host

/-- The program after a schedule. -/
def run (host : Host) (actions : List HostAction) : Host := actions.foldl step host

theorem run_nil (host : Host) : host.run [] = host := rfl

theorem run_cons (host : Host) (action : HostAction) (actions : List HostAction) :
    host.run (action :: actions) = (host.step action).run actions := rfl

theorem run_append (host : Host) (first second : List HostAction) :
    host.run (first ++ second) = (host.run first).run second :=
  List.foldl_append

/-! ### Steps that follow each other -/

/-- The sets are looked at one after the other. -/
theorem run_look {host : Host} {owner : Nat} {config : Config} {sets : List PatchSet}
    {agent agent' : Agent} {log : Log}
    (hattachment : host.attachments[owner]? = some (.looking config sets agent))
    (h : sets.foldlM (Agent.takeOn config host.record) agent host.log = .ok agent' log) :
    ∃ history, host.run (List.replicate sets.length (.look owner)) =
      { host with
        log
        attachments := host.attachments.set owner (.looking config [] agent')
        history } := by
  induction sets generalizing host agent with
  | nil =>
    obtain ⟨rfl, rfl⟩ := EStateM.pure_eq_ok.mp h
    obtain ⟨hlt, heq⟩ := List.getElem?_eq_some_iff.mp hattachment
    refine ⟨host.history, ?_⟩
    rw [← heq, List.set_getElem_self]
    rfl
  | cons set sets ih =>
    rw [List.foldlM_cons] at h
    obtain ⟨agent₁, log₁, htake, h⟩ := EStateM.bind_eq_ok.mp h
    have hlt := (List.getElem?_eq_some_iff.mp hattachment).1
    have hstep : host.step (.look owner) =
        { host with
          log := log₁
          attachments := host.attachments.set owner (.looking config sets agent₁)
          history := host.history ++ taking host.record owner set } := by
      simp only [step, hattachment, htake]
    rw [List.length_cons, List.replicate_succ, run_cons, hstep]
    obtain ⟨history, hrest⟩ := @ih { host with
      log := log₁
      attachments := host.attachments.set owner (.looking config sets agent₁)
      history := host.history ++ taking host.record owner set } agent₁
      (List.getElem?_set_self hlt) h
    rw [List.set_set] at hrest
    exact ⟨history, hrest⟩

/-- An attachment whose steps follow each other is one at once. -/
theorem run_attach {host : Host} {config : Config} {registry : Registry} {agent : Agent} {log : Log}
    (h : Agent.attach config registry host.record host.log = .ok agent log) :
    ∃ sets history, config.enabledSets registry = .ok sets ∧
      host.run (.attach config registry ::
        List.replicate (sets.length + 1) (.look host.attachments.length)) =
          { host with log, attachments := host.attachments ++ [.attached agent], history } := by
  obtain ⟨sets, log₁, hsets, hagent⟩ := EStateM.bind_eq_ok.mp h
  obtain ⟨agent₁, log₂, hlooks, hend⟩ := EStateM.bind_eq_ok.mp hagent
  cases henabled : config.enabledSets registry with
  | error e =>
    rw [henabled] at hsets
    cases hsets
  | ok sets' =>
    rw [henabled] at hsets
    obtain ⟨rfl, rfl⟩ := EStateM.pure_eq_ok.mp hsets
    have hstart : host.step (.attach config registry) = { host with
        attachments := host.attachments ++ [.looking config sets' ⟨⟨[]⟩, [], 0⟩] } := by
      simp only [step, henabled]
    obtain ⟨history, hrun⟩ := @run_look { host with
      attachments := host.attachments ++ [.looking config sets' ⟨⟨[]⟩, [], 0⟩] }
      host.attachments.length config sets' _ _ _ List.getElem?_concat_length hlooks
    refine ⟨sets', history, rfl, ?_⟩
    rw [List.replicate_succ', ← List.cons_append, run_append, run_cons host, hstart, hrun]
    have hlog : agent₁ = agent ∧
        (if agent₁.pending.isEmpty then log₂.push .nothingPending else log₂) = log := by
      split at hend
      · rename_i hnone
        rw [if_pos hnone]
        exact EStateM.pure_eq_ok.mp hend
      · rename_i hsome
        rw [if_neg hsome]
        exact EStateM.pure_eq_ok.mp hend
    obtain ⟨rfl, rfl⟩ := hlog
    simp [run, step]

/-- One version is recorded. -/
theorem step_record {host : Host} {commit owner : Nat} {agent : Agent} {family : String}
    {version : UInt32} {left : List (String × UInt32)}
    (h : host.commits[commit]? = some ⟨owner, agent⟩)
    (hpending : agent.pending = (family, version) :: left) :
    host.step (.record commit) =
      { host with
        record := host.record.insert family version
        log := host.log.push (.recorded family version)
        commits := host.commits.set commit ⟨owner, { agent with pending := left }⟩
        history := host.history ++ [.recorded owner family version] } := by
  simp only [step, h, hpending]
  rfl

/-- The versions of a commit are recorded one after the other. -/
theorem run_record {host : Host} {commit owner : Nat} {agent : Agent}
    (h : host.commits[commit]? = some ⟨owner, agent⟩) :
    ∃ commits history, host.run (List.replicate agent.pending.length (.record commit)) =
      { host with
        record := ((agent.commit host.record).run host.log).1
        log := ((agent.commit host.record).run host.log).2
        commits
        history } := by
  obtain ⟨dispatcher, pending, targetsSeen⟩ := agent
  induction pending generalizing host with
  | nil => exact ⟨host.commits, host.history, rfl⟩
  | cons row left ih =>
    obtain ⟨family, version⟩ := row
    have hlt := (List.getElem?_eq_some_iff.mp h).1
    rw [List.length_cons, List.replicate_succ, run_cons, step_record h rfl]
    exact ih (List.getElem?_set_self hlt)

/-- A commit whose steps follow each other is one at once. -/
theorem run_commit {host : Host} {owner : Nat} {agent : Agent}
    (h : host.attachments[owner]? = some (.attached agent)) :
    ∃ commits history,
      host.run (.commit owner ::
        List.replicate agent.pending.length (.record host.commits.length)) =
          { host with
            record := ((agent.commit host.record).run host.log).1
            log := ((agent.commit host.record).run host.log).2
            commits
            history } := by
  have hstart : host.step (.commit owner) =
      { host with commits := host.commits ++ [⟨owner, agent⟩] } := by
    simp only [step, h]
  rw [run_cons, hstart]
  exact run_record List.getElem?_concat_length

/-! ### What a step does -/

/-- The second state is what one step leaves of the first. -/
inductive Moves (host : Host) : Host → Prop
  | idle : Moves host host
  | begun (config : Config) (sets : List PatchSet) :
      Moves host { host with
        attachments := host.attachments ++ [.looking config sets ⟨⟨[]⟩, [], 0⟩] }
  | passed {owner : Nat} {config : Config} {set : PatchSet} {left : List PatchSet} {agent : Agent}
      (log : Log)
      (hattachment : host.attachments[owner]? = some (.looking config (set :: left) agent)) :
      Moves host { host with
        log
        attachments := host.attachments.set owner (.looking config left agent) }
  | taken {owner : Nat} {config : Config} {set : PatchSet} {left : List PatchSet}
      {agent agent' : Agent} (log : Log)
      (hattachment : host.attachments[owner]? = some (.looking config (set :: left) agent))
      (hfree : Agent.appliedVersion? host.record set = none)
      (hpending : agent'.pending = agent.pending ++ [(set.family, set.version)]) :
      Moves host { host with
        log
        attachments := host.attachments.set owner (.looking config left agent')
        history := host.history ++ [.taken owner set.family set.version] }
  | attached {owner : Nat} {config : Config} {agent : Agent} (log : Log)
      (hattachment : host.attachments[owner]? = some (.looking config [] agent)) :
      Moves host { host with
        log
        attachments := host.attachments.set owner (.attached agent) }
  | committing {owner : Nat} {agent : Agent}
      (hattachment : host.attachments[owner]? = some (.attached agent)) :
      Moves host { host with commits := host.commits ++ [⟨owner, agent⟩] }
  | recorded {commit owner : Nat} {agent : Agent} {family : String} {version : UInt32}
      {left : List (String × UInt32)} (hcommit : host.commits[commit]? = some ⟨owner, agent⟩)
      (hpending : agent.pending = (family, version) :: left) :
      Moves host { host with
        record := host.record.insert family version
        log := host.log.push (.recorded family version)
        commits := host.commits.set commit ⟨owner, { agent with pending := left }⟩
        history := host.history ++ [.recorded owner family version] }

theorem moves_step (host : Host) (action : HostAction) : host.Moves (host.step action) := by
  cases action with
  | attach config registry =>
    rw [step]
    split
    · exact .begun config _
    · exact .idle
  | look owner =>
    rw [step]
    split
    · rename_i config set left agent hattachment
      obtain ⟨log, htake⟩ := Agent.exists_takeOn config host.record agent set host.log
      rw [htake]
      dsimp only
      rw [taking]
      cases hfree : Agent.appliedVersion? host.record set with
      | some applied =>
        rw [List.append_nil]
        exact .passed log hattachment
      | none => exact .taken log hattachment hfree rfl
    · exact .attached _ ‹_›
    · exact .idle
  | commit owner =>
    rw [step]
    split
    · exact .committing ‹_›
    · exact .idle
  | record commit =>
    cases hcommit : host.commits[commit]? with
    | none =>
      simp only [step, hcommit]
      exact .idle
    | some row =>
      obtain ⟨owner, agent⟩ := row
      cases hpending : agent.pending with
      | nil =>
        simp only [step, hcommit, hpending]
        exact .idle
      | cons row left =>
        rw [step_record hcommit hpending]
        exact .recorded hcommit hpending

end Host
end ClassPatch
