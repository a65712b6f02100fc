import ClassPatch.Proofs.Agent.Schedule
import ClassPatch.Proofs.Evaluation
import ClassPatch.Registry.Builtin
import Mathlib.Data.List.Induction

/-!
# The recorded versions of a family

An agent compares a version with the recorded one when it takes the version on, but records it later
without comparing again. So under some schedules the recorded version of a family goes back. It
never does, and is the highest version recorded so far, exactly if no agent is overtaken: between
taking a version on and recording it, no higher version of the family is recorded.
-/

namespace ClassPatch

namespace VersionEvent

/-- The version of the family that the event records. -/
def recorded? (family : String) : VersionEvent → Option UInt32
  | .taken .. => none
  | .recorded _ family' version => if family' = family then some version else none

/-- The versions of a family that have been recorded, in order, with that of the first record. -/
def committed (first : VersionRecord) (family : String) (history : List VersionEvent) :
    List UInt32 :=
  first[family]?.toList ++ history.filterMap (recorded? family)

/-- An agent records a version of the family after a higher one has been recorded since it took its
own on. -/
def Overtaken (family : String) (history : List VersionEvent) : Prop :=
  ∃ before between behind owner version other higher,
    history = before ++ .taken owner family version :: between ++
      .recorded owner family version :: behind ∧
    .recorded other family higher ∈ between ∧ version < higher

/-- A version is taken on only above the recorded one, and recorded only by who has taken it on. -/
inductive Honest (first : VersionRecord) : List VersionEvent → Prop
  | nil : Honest first []
  | taken {history : List VersionEvent} {owner : Nat} {family : String} {version : UInt32}
      (h : Honest first history)
      (hbelow : ∀ u, (committed first family history).getLast? = some u → u < version) :
      Honest first (history ++ [.taken owner family version])
  | recorded {history : List VersionEvent} {owner : Nat} {family : String} {version : UInt32}
      (h : Honest first history) (htaken : .taken owner family version ∈ history) :
      Honest first (history ++ [.recorded owner family version])

variable {first : VersionRecord} {family : String} {history : List VersionEvent}

theorem committed_append (first : VersionRecord) (family : String)
    (history more : List VersionEvent) : committed first family (history ++ more) =
      committed first family history ++ more.filterMap (recorded? family) := by
  rw [committed, List.filterMap_append, ← List.append_assoc, committed]

@[simp] theorem recorded?_taken (family family' : String) (owner : Nat) (version : UInt32) :
    recorded? family (.taken owner family' version) = none := rfl

@[simp] theorem recorded?_self (family : String) (owner : Nat) (version : UInt32) :
    recorded? family (.recorded owner family version) = some version := if_pos rfl

theorem recorded?_of_ne {family' : String} (h : family' ≠ family) (owner : Nat)
    (version : UInt32) : recorded? family (.recorded owner family' version) = none := if_neg h

theorem mem_filterMap_recorded? {version : UInt32} :
    version ∈ history.filterMap (recorded? family) ↔
      ∃ owner, .recorded owner family version ∈ history := by
  rw [List.mem_filterMap]
  constructor
  · rintro ⟨event, hmem, hversion⟩
    cases event with
    | taken => cases hversion
    | recorded owner family' version' =>
      rw [recorded?] at hversion
      split at hversion
      · rename_i hfamily
        obtain rfl := Option.some.inj hversion
        exact ⟨owner, hfamily ▸ hmem⟩
      · cases hversion
  · rintro ⟨owner, hmem⟩
    exact ⟨_, hmem, recorded?_self ..⟩

theorem Overtaken.append (h : Overtaken family history) (more : List VersionEvent) :
    Overtaken family (history ++ more) := by
  obtain ⟨before, between, behind, owner, version, other, higher, rfl, hmem, hlt⟩ := h
  exact ⟨before, between, behind ++ more, owner, version, other, higher, by simp, hmem, hlt⟩

/-- What was taken on was above what had been recorded until then. -/
theorem Honest.exists_of_taken (h : Honest first history) {owner : Nat} {version : UInt32}
    (hmem : .taken owner family version ∈ history) :
    ∃ before between, history = before ++ .taken owner family version :: between ∧
      ∀ u, (committed first family before).getLast? = some u → u < version := by
  induction h with
  | nil => cases hmem
  | @taken history owner' family' version' h hbelow ih =>
    rw [List.mem_append, List.mem_singleton] at hmem
    obtain hmem | heq := hmem
    · obtain ⟨before, between, rfl, hbefore⟩ := ih hmem
      exact ⟨before, between ++ [.taken owner' family' version'], by simp, hbefore⟩
    · obtain ⟨rfl, rfl, rfl⟩ := VersionEvent.taken.inj heq
      exact ⟨history, [], rfl, hbelow⟩
  | @recorded history owner' family' version' h htaken ih =>
    rw [List.mem_append, List.mem_singleton] at hmem
    obtain ⟨before, between, rfl, hbefore⟩ := ih (hmem.resolve_right nofun)
    exact ⟨before, between ++ [.recorded owner' family' version'], by simp, hbefore⟩

/-! ### Versions in order -/

/-- The last of versions in order is the highest. -/
theorem exists_getLast?_of_pairwise {versions : List UInt32} (h : versions.Pairwise (· ≤ ·))
    {u : UInt32} (hu : u ∈ versions) : ∃ w, versions.getLast? = some w ∧ u ≤ w := by
  have hne : versions ≠ [] := List.ne_nil_of_mem hu
  refine ⟨versions.getLast hne, List.getLast?_eq_some_getLast hne, ?_⟩
  rw [← List.dropLast_concat_getLast hne, List.mem_append, List.mem_singleton] at hu
  rw [← List.dropLast_concat_getLast hne, List.pairwise_append] at h
  obtain hu | rfl := hu
  · exact h.2.2 u hu _ (List.mem_singleton_self _)
  · exact UInt32.le_refl _

/-- The versions of a family are recorded in order if and only if nobody is overtaken. -/
theorem Honest.pairwise_iff (h : Honest first history) (family : String) :
    (committed first family history).Pairwise (· ≤ ·) ↔ ¬Overtaken family history := by
  constructor
  · rintro hsorted ⟨before, between, behind, owner, version, other, higher, rfl, hmem, hlt⟩
    rw [committed_append, List.filterMap_cons_some (recorded?_self ..),
      List.pairwise_append] at hsorted
    refine UInt32.not_le.mpr hlt (hsorted.2.2 higher ?_ version (List.mem_cons_self ..))
    refine List.mem_append_right _ (mem_filterMap_recorded?.mpr ⟨other, ?_⟩)
    exact List.mem_append_right _ (List.mem_cons_of_mem _ hmem)
  · intro hno
    induction h with
    | nil =>
      rw [committed, List.filterMap_nil, List.append_nil]
      cases first[family]? <;> simp
    | taken h hbelow ih =>
      rw [committed_append, List.filterMap_cons_none rfl, List.filterMap_nil, List.append_nil]
      exact ih fun hover => hno (hover.append _)
    | @recorded history owner family' version h htaken ih =>
      replace ih := ih fun hover => hno (hover.append _)
      rw [committed_append]
      by_cases hfamily : family' = family
      · subst hfamily
        rw [List.filterMap_cons_some (recorded?_self ..), List.filterMap_nil, List.pairwise_append]
        refine ⟨ih, List.pairwise_singleton .., fun u hu v hv => ?_⟩
        rw [List.mem_singleton.mp hv]
        -- a higher version would be the last one, and recorded since this one was taken on
        refine UInt32.not_lt.mp fun hlt => hno ?_
        obtain ⟨w, hlast, hle⟩ := exists_getLast?_of_pairwise ih hu
        have hw : version < w := UInt32.lt_of_lt_of_le hlt hle
        obtain ⟨before, between, rfl, hbelow⟩ := h.exists_of_taken htaken
        rw [committed_append, List.filterMap_cons_none rfl, List.getLast?_append,
          Option.or_eq_some_iff] at hlast
        obtain hlast | ⟨-, hlast⟩ := hlast
        · obtain ⟨other, hother⟩ := mem_filterMap_recorded?.mp (List.mem_of_getLast? hlast)
          exact ⟨before, between, [], owner, version, other, w, rfl, hother, hw⟩
        · exact absurd (hbelow w hlast) (UInt32.not_lt.mpr (UInt32.le_of_lt hw))
      · rw [List.filterMap_cons_none (recorded?_of_ne hfamily ..), List.filterMap_nil,
          List.append_nil]
        exact ih

end VersionEvent

/-- The agent of an attachment. -/
def Attachment.agent : Attachment → Agent
  | .looking _ _ agent => agent
  | .attached agent => agent

namespace Host

open VersionEvent

/-! ### What every schedule keeps -/

/-- The record has what was recorded last, and whatever an agent is going to record it has taken
on. -/
structure Sound (first : VersionRecord) (host : Host) : Prop where
  honest : Honest first host.history
  record : ∀ family, host.record[family]? = (committed first family host.history).getLast?
  attachments : ∀ (owner : Nat) (attachment : Attachment),
    host.attachments[owner]? = some attachment →
      ∀ row ∈ attachment.agent.pending, .taken owner row.1 row.2 ∈ host.history
  commits : ∀ commit ∈ host.commits, ∀ row ∈ commit.agent.pending,
    .taken commit.owner row.1 row.2 ∈ host.history

theorem sound_initial (first : VersionRecord) (log : Log) : Sound first (initial first log) where
  honest := .nil
  record family := by
    rw [committed, initial]
    cases first[family]? <;> rfl
  attachments _ _ h := by cases h
  commits _ h := by cases h

/-- What no version is in the way of is above the recorded version. -/
theorem lt_of_appliedVersion? {record : VersionRecord} {set : PatchSet}
    (h : Agent.appliedVersion? record set = none) {u : UInt32} (hu : record[set.family]? = some u) :
    u < set.version := by
  rw [Agent.appliedVersion?, hu, Option.filter_eq_none_iff] at h
  simpa using h u rfl

namespace Sound

variable {first : VersionRecord} {host : Host} (h : Sound first host)
include h

/-- Another agent in the place of one. -/
theorem attachments_set {owner : Nat} {attachment : Attachment} {history : List VersionEvent}
    (hhistory : host.history ⊆ history)
    (hnew : ∀ row ∈ attachment.agent.pending, .taken owner row.1 row.2 ∈ history) (owner' : Nat)
    (attachment' : Attachment)
    (hget : (host.attachments.set owner attachment)[owner']? = some attachment') :
    ∀ row ∈ attachment'.agent.pending, .taken owner' row.1 row.2 ∈ history := by
  rw [List.getElem?_set] at hget
  split at hget
  · rename_i heq
    subst heq
    split at hget
    · obtain rfl := Option.some.inj hget
      exact hnew
    · cases hget
  · exact fun row hrow => hhistory (h.attachments owner' attachment' hget row hrow)

theorem moves {host' : Host} (hmoves : host.Moves host') : Sound first host' := by
  cases hmoves with
  | idle => exact h
  | begun config sets =>
    refine ⟨h.honest, h.record, fun owner attachment hget row hrow => ?_, h.commits⟩
    rw [List.getElem?_append] at hget
    split at hget
    · exact h.attachments owner attachment hget row hrow
    · obtain rfl := List.mem_singleton.mp (List.mem_of_getElem? hget)
      cases hrow
  | @passed owner config set left agent log hattachment =>
    have hpending := h.attachments owner (.looking config (set :: left) agent) hattachment
    exact ⟨h.honest, h.record, h.attachments_set (List.Subset.refl _) hpending, h.commits⟩
  | @taken owner config set left agent agent' log hattachment hfree hpending =>
    have hbelow (u : UInt32) (hu : (committed first set.family host.history).getLast? = some u) :
        u < set.version :=
      lt_of_appliedVersion? hfree ((h.record set.family).trans hu)
    refine ⟨h.honest.taken hbelow, fun family => ?_,
      h.attachments_set (List.subset_append_left ..) fun row hrow => ?_,
      fun commit hcommit row hrow => List.mem_append_left _ (h.commits commit hcommit row hrow)⟩
    · rw [committed_append, List.filterMap_cons_none (recorded?_taken ..), List.filterMap_nil,
        List.append_nil]
      exact h.record family
    · rw [Attachment.agent, hpending, List.mem_append, List.mem_singleton] at hrow
      obtain hold | rfl := hrow
      · exact List.mem_append_left _ (h.attachments owner _ hattachment row hold)
      · exact List.mem_append_right _ (List.mem_singleton_self _)
  | @attached owner config agent log hattachment =>
    have hpending := h.attachments owner (.looking config [] agent) hattachment
    exact ⟨h.honest, h.record, h.attachments_set (List.Subset.refl _) hpending, h.commits⟩
  | @committing owner agent hattachment =>
    refine ⟨h.honest, h.record, h.attachments, fun commit hcommit row hrow => ?_⟩
    rw [List.mem_append, List.mem_singleton] at hcommit
    obtain hold | rfl := hcommit
    · exact h.commits commit hold row hrow
    · exact h.attachments owner _ hattachment row hrow
  | @recorded commit owner agent family version left hcommit hpending =>
    have hcommits := h.commits _ (List.mem_of_getElem? hcommit)
    dsimp only at hcommits
    rw [hpending] at hcommits
    refine ⟨h.honest.recorded (hcommits _ (List.mem_cons_self ..)), fun family' => ?_,
      fun owner' attachment hget row hrow =>
        List.mem_append_left _ (h.attachments owner' attachment hget row hrow),
      fun commit' hmem row hrow => List.mem_append_left _ ?_⟩
    · rw [Std.TreeMap.getElem?_insert, committed_append]
      by_cases hfamily : family = family'
      · subst hfamily
        rw [if_pos Std.ReflCmp.compare_self, List.filterMap_cons_some (recorded?_self ..),
          List.filterMap_nil, List.getLast?_concat]
      · rw [if_neg fun heq => hfamily (Std.LawfulEqCmp.compare_eq_iff_eq.mp heq),
          List.filterMap_cons_none (recorded?_of_ne hfamily ..), List.filterMap_nil,
          List.append_nil]
        exact h.record family'
    · obtain hold | rfl := List.mem_or_eq_of_mem_set hmem
      · exact h.commits commit' hold row hrow
      · exact hcommits row (List.mem_cons_of_mem _ hrow)

theorem run (actions : List HostAction) : Sound first (host.run actions) := by
  induction actions generalizing host with
  | nil => exact h
  | cons action actions ih => exact ih (h.moves (host.moves_step action))

end Sound

/-! ### Schedules -/

/-- At most one event is added to the history. -/
theorem Moves.history {host host' : Host} (h : host.Moves host') :
    ∃ more : List VersionEvent, host'.history = host.history ++ more ∧ more.length ≤ 1 := by
  cases h with
  | taken => exact ⟨[_], rfl, Nat.le_refl 1⟩
  | recorded => exact ⟨[_], rfl, Nat.le_refl 1⟩
  | _ => exact ⟨[], (List.append_nil _).symm, Nat.zero_le 1⟩

theorem history_run (host : Host) (actions : List HostAction) :
    host.history <+: (host.run actions).history := by
  induction actions generalizing host with
  | nil => exact List.prefix_refl _
  | cons action actions ih =>
    obtain ⟨more, hmore, -⟩ := (host.moves_step action).history
    exact List.IsPrefix.trans ⟨more, hmore.symm⟩ (ih (host.step action))

section

variable (first : VersionRecord) (log : Log) (family : String)

/-- The versions of the family that have been recorded under a schedule. -/
def versionsOf (actions : List HostAction) : List UInt32 :=
  committed first family ((initial first log).run actions).history

/-- The version of the family that is recorded after a schedule. -/
def recordedVersion? (actions : List HostAction) : Option UInt32 :=
  ((initial first log).run actions).record[family]?

/-- Whatever has been done of the schedule, the recorded version has not gone back since. -/
def NeverDecreases (actions : List HostAction) : Prop :=
  ∀ before now, before <+: now → now <+: actions →
    recordedVersion? first log family before ≤ recordedVersion? first log family now

/-- At any time the recorded version is the highest of those recorded so far. -/
def AlwaysHighest (actions : List HostAction) : Prop :=
  ∀ now, now <+: actions → ∀ v, recordedVersion? first log family now = some v ↔
    v ∈ versionsOf first log family now ∧ ∀ u ∈ versionsOf first log family now, u ≤ v

variable {first log family} {actions : List HostAction}

theorem recordedVersion?_eq (actions : List HostAction) :
    recordedVersion? first log family actions =
      (versionsOf first log family actions).getLast? :=
  ((sound_initial first log).run actions).record family

theorem versionsOf_isPrefix {before now : List HostAction} (h : before <+: now) :
    versionsOf first log family before <+: versionsOf first log family now := by
  obtain ⟨more, rfl⟩ := h
  obtain ⟨events, hevents⟩ := history_run ((initial first log).run before) more
  rw [versionsOf, versionsOf, run_append, ← hevents, committed_append]
  exact List.prefix_append ..

/-- A step records one version of the family or none. -/
theorem versionsOf_concat (before : List HostAction) (action : HostAction) :
    versionsOf first log family (before ++ [action]) = versionsOf first log family before ∨
      ∃ v, versionsOf first log family (before ++ [action]) =
        versionsOf first log family before ++ [v] := by
  obtain ⟨more, hmore, hlength⟩ :=
    (((initial first log).run before).moves_step action).history
  rw [versionsOf, versionsOf, run_append, run_cons, run_nil, hmore, committed_append]
  cases hversions : more.filterMap (recorded? family) with
  | nil => exact .inl (List.append_nil _)
  | cons v rest =>
    have hone := List.length_filterMap_le (recorded? family) more
    rw [hversions, List.length_cons] at hone
    obtain rfl := List.length_eq_zero_iff.mp (show rest.length = 0 by omega)
    exact .inr ⟨v, rfl⟩

/-- The versions are in order if none that is recorded is below those before it. -/
theorem pairwise_of_forall_le
    (h : ∀ before action, before ++ [action] <+: actions →
      (versionsOf first log family before).Pairwise (· ≤ ·) →
        ∀ u ∈ versionsOf first log family before, ∀ v,
          recordedVersion? first log family (before ++ [action]) = some v → u ≤ v) :
    (versionsOf first log family actions).Pairwise (· ≤ ·) := by
  induction actions using List.reverseRecOn with
  | nil =>
    have hfirst : versionsOf first log family [] = first[family]?.toList := List.append_nil _
    rw [hfirst]
    cases first[family]? <;> simp
  | append_singleton actions action ih =>
    replace ih := ih fun before action' hdone =>
      h before action' (List.IsPrefix.trans hdone (List.prefix_append ..))
    obtain heq | ⟨v, hv⟩ := @versionsOf_concat first log family actions action
    · rw [heq]
      exact ih
    · rw [hv, List.pairwise_append]
      refine ⟨ih, List.pairwise_singleton .., fun u hu w hw => ?_⟩
      rw [List.mem_singleton.mp hw]
      refine h actions action (List.prefix_refl _) ih u hu v ?_
      rw [recordedVersion?_eq, hv, List.getLast?_concat]

theorem neverDecreases_iff_pairwise : NeverDecreases first log family actions ↔
    (versionsOf first log family actions).Pairwise (· ≤ ·) := by
  constructor
  · intro h
    refine pairwise_of_forall_le fun before action hdone hsorted u hu v hv => ?_
    obtain ⟨w, hlast, hle⟩ := exists_getLast?_of_pairwise hsorted hu
    have hstep := h before (before ++ [action]) (List.prefix_append ..) hdone
    rw [hv, recordedVersion?_eq, hlast, Option.some_le_some] at hstep
    exact UInt32.le_trans hle hstep
  · intro hsorted before now hbefore hnow
    replace hsorted := hsorted.sublist (versionsOf_isPrefix hnow).sublist
    rw [recordedVersion?_eq, recordedVersion?_eq]
    cases hlast : (versionsOf first log family before).getLast? with
    | none => exact Option.none_le
    | some u =>
      have hu := (versionsOf_isPrefix hbefore).subset (List.mem_of_getLast? hlast)
      obtain ⟨w, hw, hle⟩ := exists_getLast?_of_pairwise hsorted hu
      rw [hw]
      exact hle

theorem alwaysHighest_iff_pairwise : AlwaysHighest first log family actions ↔
    (versionsOf first log family actions).Pairwise (· ≤ ·) := by
  constructor
  · intro h
    refine pairwise_of_forall_le fun before action hdone _ u hu v hv => ?_
    exact ((h (before ++ [action]) hdone v).mp hv).2 u
      ((versionsOf_isPrefix (List.prefix_append ..)).subset hu)
  · intro hsorted now hnow v
    replace hsorted := hsorted.sublist (versionsOf_isPrefix hnow).sublist
    rw [recordedVersion?_eq]
    constructor
    · intro hv
      refine ⟨List.mem_of_getLast? hv, fun u hu => ?_⟩
      obtain ⟨w, hw, hle⟩ := exists_getLast?_of_pairwise hsorted hu
      obtain rfl := Option.some.inj (hw.symm.trans hv)
      exact hle
    · rintro ⟨hmem, hhighest⟩
      obtain ⟨w, hw, hle⟩ := exists_getLast?_of_pairwise hsorted hmem
      have hge := hhighest w (List.mem_of_getLast? hw)
      rw [hw, UInt32.le_antisymm hge hle]

/-- Under any schedule of any number of agents, the recorded version of a family never goes back,
and is the highest of those recorded so far, if and only if no agent is overtaken between taking a
version on and recording it. -/
theorem neverDecreases_iff (first : VersionRecord) (log : Log) (family : String)
    (actions : List HostAction) :
    (NeverDecreases first log family actions ↔
      ¬Overtaken family ((initial first log).run actions).history) ∧
    (AlwaysHighest first log family actions ↔
      ¬Overtaken family ((initial first log).run actions).history) := by
  have hhonest := ((sound_initial first log).run actions).honest.pairwise_iff family
  exact ⟨neverDecreases_iff_pairwise.trans hhonest, alwaysHighest_iff_pairwise.trans hhonest⟩

end

/-- Two agents are attached, one for the first version of a family and one for the latest versions,
and then the second commits. -/
private def latestFirst : List HostAction :=
  [.attach (.ofSettings [.version "spring" 1]) .builtin, .look 0, .look 0, .look 0,
    .attach .default .builtin, .look 1, .look 1, .look 1, .commit 1, .record 0, .record 0]

/-- If both attach before either of them commits, and the one with the lower version commits last,
the recorded version goes back: no step of theirs need interrupt another call. -/
theorem not_neverDecreases_latestFirst :
    (∃ older latest log log',
      Agent.attach (.ofSettings [.version "spring" 1]) .builtin ∅ #[] = .ok older log ∧
      Agent.attach .default .builtin ∅ #[] = .ok latest log' ∧
      (latest.commit ∅ #[]).1["spring"]? = some 2 ∧
      (older.commit (latest.commit ∅ #[]).1 #[]).1["spring"]? = some 1) ∧
    ¬NeverDecreases ∅ #[] "spring" (latestFirst ++ [.commit 0, .record 1, .record 1]) := by
  refine ⟨⟨_, _, _, _, by cbv, by cbv, by cbv, by cbv⟩, fun h => ?_⟩
  have hback := h latestFirst _ (List.prefix_append ..) (List.prefix_refl _)
  have hlatest : recordedVersion? ∅ #[] "spring" latestFirst = some 2 := by cbv
  have holder : recordedVersion? ∅ #[] "spring"
      (latestFirst ++ [.commit 0, .record 1, .record 1]) = some 1 := by cbv
  rw [hlatest, holder, Option.some_le_some] at hback
  exact absurd hback (by decide)

end Host
end ClassPatch
