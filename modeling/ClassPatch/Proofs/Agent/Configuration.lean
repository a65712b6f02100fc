import ClassPatch.Proofs.Agent.Settings
import ClassPatch.Proofs.Text.Runs
import Mathlib.Data.List.Induction
import Std.Data.TreeSet.Lemmas
import Std.Data.TreeMap.Lemmas

/-!
# What a configuration asks for

A text is read word by word. It is a configuration if each word writes a setting, and then a patch
is left out if some word says so, a family has the version of the last word that selects one, and
reports are made unless a word asks for quiet or the last word about reporting asks for none.

`LastOf R xs x` says that the last element of a list that stands in the relation `R` to anything
stands in it to `x`. It does not see the elements that stand in it to nothing. So words that are
about different things can change places: what a text means depends only on the words about each
thing, in their order.
-/

namespace ClassPatch

/-! ### The last word -/

section LastOf

variable {α β γ : Type} {R S : α → β → Prop} {xs : List α} {x : β}

/-- The last element about anything is about `x`. -/
def LastOf (R : α → β → Prop) (xs : List α) (x : β) : Prop :=
  ∃ before a behind, xs = before ++ a :: behind ∧ R a x ∧ ∀ b ∈ behind, ∀ y, ¬R b y

theorem not_lastOf_nil (x : β) : ¬LastOf R [] x := by
  rintro ⟨before, a, behind, h, -⟩
  exact List.append_ne_nil_of_right_ne_nil before (List.cons_ne_nil a behind) h.symm

/-- The last element counts, or is about nothing. -/
theorem lastOf_concat {a : α} :
    LastOf R (xs ++ [a]) x ↔ R a x ∨ (∀ y, ¬R a y) ∧ LastOf R xs x := by
  constructor
  · rintro ⟨before, b, behind, hxs, hb, hbehind⟩
    rcases List.eq_nil_or_concat' behind with rfl | ⟨behind, c, rfl⟩
    · obtain ⟨-, rfl⟩ := List.append_singleton_inj.mp hxs
      exact .inl hb
    · rw [← List.cons_append, ← List.append_assoc] at hxs
      obtain ⟨rfl, rfl⟩ := List.append_singleton_inj.mp hxs
      rw [List.forall_mem_append] at hbehind
      exact .inr ⟨hbehind.2 a (List.mem_singleton_self a), before, b, behind, rfl, hb, hbehind.1⟩
  · rintro (ha | ⟨ha, before, b, behind, rfl, hb, hbehind⟩)
    · exact ⟨xs, a, [], rfl, ha, nofun⟩
    · refine ⟨before, b, behind ++ [a], by simp, hb, List.forall_mem_append.mpr ⟨hbehind, ?_⟩⟩
      rintro b hb
      exact List.mem_singleton.mp hb ▸ ha

theorem lastOf_congr (h : ∀ a ∈ xs, ∀ x, R a x ↔ S a x) : LastOf R xs x ↔ LastOf S xs x := by
  induction xs using List.reverseRecOn with
  | nil => exact iff_of_false (not_lastOf_nil x) (not_lastOf_nil x)
  | append_singleton xs a ih =>
    rw [List.forall_mem_append] at h
    have ha := h.2 a (List.mem_singleton_self a)
    rw [lastOf_concat, lastOf_concat, ih h.1, ha x]
    simp only [ha]

theorem lastOf_map {f : γ → α} {xs : List γ} :
    LastOf R (xs.map f) x ↔ LastOf (fun a => R (f a)) xs x := by
  induction xs using List.reverseRecOn with
  | nil => exact iff_of_false (not_lastOf_nil x) (not_lastOf_nil x)
  | append_singleton xs a ih =>
    rw [List.map_append, List.map_singleton, lastOf_concat, lastOf_concat, ih]

/-- Elements that are about nothing can be left out. -/
theorem lastOf_filter {q : α → Bool} (hq : ∀ a x, R a x → q a = true) :
    LastOf R (xs.filter q) x ↔ LastOf R xs x := by
  induction xs using List.reverseRecOn with
  | nil => exact Iff.rfl
  | append_singleton xs a ih =>
    rw [List.filter_append, lastOf_concat, ← ih]
    by_cases ha : q a = true
    · rw [List.filter_cons_of_pos ha, List.filter_nil, lastOf_concat]
    · have hnone (y : β) : ¬R a y := fun hy => ha (hq a y hy)
      rw [List.filter_cons_of_neg ha, List.filter_nil, List.append_nil, or_iff_right (hnone x),
        and_iff_right hnone]

end LastOf

namespace Setting

/-- What a setting is about. -/
inductive Topic
  | reporting
  | quiet
  | patch (name : String)
  | family (name : String)
  deriving DecidableEq

def topic : Setting → Topic
  | .reporting _ => .reporting
  | .quiet => .quiet
  | .disable patch => .patch patch
  | .version family _ => .family family

/-- What a word is about, if it writes a setting. -/
def topic? (word : List Char) : Option Topic := (read word).toOption.map topic

def isAbout (topic : Option Topic) (word : List Char) : Bool := topic? word = topic

variable {word : List Char} {s : Setting}

theorem isAbout_iff {topic : Option Topic} : isAbout topic word = true ↔ topic? word = topic :=
  decide_eq_true_iff

theorem topic?_of_writes (h : Writes word s) : topic? word = some s.topic := by
  rw [topic?, read_of_writes h]
  rfl

end Setting

open Setting (Writes topic? isAbout)

namespace Config

/-! ### Settings one after the other -/

section Settings

variable {config : Config} {settings : List Setting}

theorem mem_disabled_foldl {name : String} :
    name ∈ (settings.foldl add config).disabled ↔
      .disable name ∈ settings ∨ name ∈ config.disabled := by
  induction settings using List.reverseRecOn with
  | nil => simp
  | append_singleton settings s ih =>
    rw [List.foldl_append, List.foldl_cons, List.foldl_nil, List.mem_append, List.mem_singleton]
    cases s with
    | reporting | quiet | version => simpa [add] using ih
    | disable patch =>
      simp only [add, Std.TreeSet.mem_insert, Std.LawfulEqCmp.compare_eq_iff_eq, ih,
        Setting.disable.injEq, eq_comm (a := name)]
      tauto

theorem versions_foldl (hconfig : config.versions = ∅) {family : String} {n : UInt32} :
    (settings.foldl add config).versions[family]? = some n ↔
      LastOf (fun s n => s = .version family n) settings n := by
  induction settings using List.reverseRecOn with
  | nil => simp [hconfig, not_lastOf_nil]
  | append_singleton settings s ih =>
    rw [List.foldl_append, List.foldl_cons, List.foldl_nil, lastOf_concat, ← ih]
    cases s with
    | reporting | quiet | disable => simp [add]
    | version family' n' =>
      simp only [add, Std.TreeMap.getElem?_insert, Std.LawfulEqCmp.compare_eq_iff_eq,
        Setting.version.injEq]
      by_cases hfamily : family' = family
      · simp [hfamily]
      · simp [hfamily]

theorem verbose_foldl (hconfig : config.verbose = false) :
    (settings.foldl add config).verbose = true ↔
      LastOf (fun s on => s = .reporting on) settings true := by
  induction settings using List.reverseRecOn with
  | nil => simp [hconfig, not_lastOf_nil]
  | append_singleton settings s ih =>
    rw [List.foldl_append, List.foldl_cons, List.foldl_nil, lastOf_concat, ← ih]
    cases s with
    | version | quiet | disable => simp [add]
    | reporting on => simp [add]

end Settings

/-! ### Texts -/

/-- The characters between words. -/
def separates (c : Char) : Bool := c == ',' || Text.isBlank c

/-- What the words of a configuration ask for. -/
structure Reflects (config : Config) (ws : List (List Char)) : Prop where
  disabled : ∀ name, name ∈ config.disabled ↔ ∃ word ∈ ws, Writes word (.disable name)
  versions : ∀ family n, config.versions[family]? = some n ↔
    LastOf (fun word n => Writes word (.version family n)) ws n
  verbose : config.verbose = true ↔ (∀ word ∈ ws, ¬Writes word .quiet) ∧
    (ws = [] ∨ LastOf (fun word on => Writes word (.reporting on)) ws true)

/-- Both configurations ask for the same. -/
structure Same (config config' : Config) : Prop where
  disabled : config.disabled.Equiv config'.disabled
  versions : config.versions.Equiv config'.versions
  verbose : config.verbose = config'.verbose

/-- Both outcomes are the same configuration or the same error. -/
inductive SameOutcome : Except Error Config → Except Error Config → Prop
  | ok {config config' : Config} (h : Same config config') : SameOutcome (.ok config) (.ok config')
  | error (e : Error) : SameOutcome (.error e) (.error e)

/-- Of the words about each thing, and of those that write no setting, both lists have the same in
the same order. -/
def SameByTopic (ws ws' : List (List Char)) : Prop :=
  ∀ topic, ws.filter (isAbout topic) = ws'.filter (isAbout topic)

variable {config config' : Config} {ws ws' : List (List Char)} {settings : List Setting}

/-! ### The meaning of words -/

theorem mem_settings (h : List.Forall₂ Writes ws settings) {s : Setting} :
    s ∈ settings ↔ ∃ word ∈ ws, Writes word s := by
  constructor
  · exact h.exists_left
  · rintro ⟨word, hword, hs⟩
    obtain ⟨s', hs', hwrites⟩ := h.exists_right hword
    exact hs.unique hwrites ▸ hs'

theorem lastOf_settings {α : Type} {f : α → Setting} {x : α}
    (h : List.Forall₂ Writes ws settings) :
    LastOf (fun s x => s = f x) settings x ↔ LastOf (fun word x => Writes word (f x)) ws x := by
  have hread : settings.map Except.ok = ws.map Setting.read :=
    h.map_eq fun _ _ hw => (Setting.read_of_writes hw).symm
  calc LastOf (fun s x => s = f x) settings x
    _ ↔ LastOf (fun s x => (Except.ok s : Except ConfigFault Setting) = .ok (f x)) settings x :=
      lastOf_congr fun _ _ _ => Except.ok.injEq .. ▸ Iff.rfl
    _ ↔ LastOf (fun r x => r = .ok (f x)) (ws.map Setting.read) x := by
      rw [← hread, lastOf_map]
    _ ↔ LastOf (fun word x => Writes word (f x)) ws x := by
      rw [lastOf_map]
      exact lastOf_congr fun _ _ _ => Setting.read_eq_ok_iff

theorem disabled_ofSettings (settings : List Setting) : (ofSettings settings).disabled =
    (settings.foldl add { default with verbose := settings.isEmpty }).disabled := by
  rw [ofSettings]
  split <;> rfl

theorem versions_ofSettings (settings : List Setting) : (ofSettings settings).versions =
    (settings.foldl add { default with verbose := settings.isEmpty }).versions := by
  rw [ofSettings]
  split <;> rfl

theorem verbose_ofSettings (settings : List Setting) : (ofSettings settings).verbose = true ↔
    .quiet ∉ settings ∧
      (settings = [] ∨ LastOf (fun s on => s = .reporting on) settings true) := by
  rw [ofSettings]
  by_cases hquiet : .quiet ∈ settings
  · rw [if_pos (List.contains_iff_mem.mpr hquiet)]
    exact iff_of_false Bool.false_ne_true fun h => h.1 hquiet
  · rw [if_neg (mt List.contains_iff_mem.mp hquiet), and_iff_right hquiet]
    cases settings with
    | nil => exact iff_of_true rfl (.inl rfl)
    | cons s settings =>
      rw [or_iff_right (List.cons_ne_nil s settings)]
      exact verbose_foldl rfl

theorem reflects_ofSettings (h : List.Forall₂ Writes ws settings) :
    (ofSettings settings).Reflects ws where
  disabled name := by
    rw [disabled_ofSettings, mem_disabled_foldl, mem_settings h]
    exact or_iff_left Std.TreeSet.not_mem_emptyc
  versions family n := by
    rw [versions_ofSettings, versions_foldl rfl]
    exact lastOf_settings (f := Setting.version family) h
  verbose := by
    have hnil : settings = [] ↔ ws = [] := by
      rw [← List.length_eq_zero_iff, ← List.length_eq_zero_iff, h.length_eq]
    have hquiet : .quiet ∉ settings ↔ ∀ word ∈ ws, ¬Writes word .quiet := by
      rw [mem_settings h]
      simp only [not_exists, not_and]
    rw [verbose_ofSettings, hquiet, hnil, lastOf_settings (f := Setting.reporting) h]

theorem read_eq_ok {text : String} : read text = .ok config ↔
    ∃ settings, List.Forall₂ Writes (words text) settings ∧ ofSettings settings = config := by
  rw [read]
  cases h : (words text).mapM Setting.read with
  | ok settings =>
    have hwrites := (Except.mapM_eq_ok.mp h).imp fun _ _ => Setting.writes_of_read
    constructor
    · exact fun hconfig => ⟨settings, hwrites, Except.ok.inj hconfig⟩
    · rintro ⟨settings', hwrites', rfl⟩
      have hsame : settings' = settings := Except.ok.inj <| h ▸
        (Except.mapM_eq_ok.mpr (hwrites'.imp fun _ _ => Setting.read_of_writes)).symm
      rw [hsame]
  | error fault =>
    refine iff_of_false nofun ?_
    rintro ⟨settings, hwrites, -⟩
    have hok := Except.mapM_eq_ok.mpr (hwrites.imp fun _ _ => Setting.read_of_writes)
    cases h.symm.trans hok

theorem exists_read_iff {text : String} :
    (∃ config, read text = .ok config) ↔ ∀ word ∈ words text, ∃ s, Writes word s := by
  constructor
  · rintro ⟨config, h⟩ word hword
    obtain ⟨settings, hwrites, -⟩ := read_eq_ok.mp h
    obtain ⟨s, -, hs⟩ := hwrites.exists_right hword
    exact ⟨s, hs⟩
  · intro h
    obtain ⟨settings, hsettings⟩ := Except.exists_mapM fun word hword => by
      obtain ⟨s, hs⟩ := h word hword
      exact ⟨s, Setting.read_of_writes hs⟩
    have hwrites := (Except.mapM_eq_ok.mp hsettings).imp fun _ _ => Setting.writes_of_read
    exact ⟨ofSettings settings, read_eq_ok.mpr ⟨settings, hwrites, rfl⟩⟩

/-! ### The order of words -/

theorem SameByTopic.mem_iff (h : SameByTopic ws ws') {word : List Char} :
    word ∈ ws ↔ word ∈ ws' := by
  have hmem (ws : List (List Char)) : word ∈ ws ↔ word ∈ ws.filter (isAbout (topic? word)) := by
    rw [List.mem_filter, Setting.isAbout_iff, and_iff_left rfl]
  rw [hmem ws, hmem ws', h]

theorem SameByTopic.lastOf_iff {α : Type} {f : α → Setting} {topic : Setting.Topic}
    (hf : ∀ x, (f x).topic = topic) (h : SameByTopic ws ws') {x : α} :
    LastOf (fun word x => Writes word (f x)) ws x ↔
      LastOf (fun word x => Writes word (f x)) ws' x := by
  have htopic (word : List Char) (x : α) (hw : Writes word (f x)) :
      isAbout (some topic) word = true := by
    rw [Setting.isAbout_iff, Setting.topic?_of_writes hw, hf]
  rw [← lastOf_filter htopic, h, lastOf_filter htopic]

theorem Reflects.of_sameByTopic (h : config.Reflects ws) (hsame : SameByTopic ws ws') :
    config.Reflects ws' where
  disabled name := by
    rw [h.disabled]
    simp only [hsame.mem_iff]
  versions family n := by
    rw [h.versions, hsame.lastOf_iff (f := Setting.version family) fun _ => rfl]
  verbose := by
    have hnil : ws = [] ↔ ws' = [] := by
      simp only [List.eq_nil_iff_forall_not_mem, hsame.mem_iff]
    rw [h.verbose, hnil, hsame.lastOf_iff (f := Setting.reporting) fun _ => rfl]
    simp only [hsame.mem_iff]

theorem Reflects.same (h : config.Reflects ws) (h' : config'.Reflects ws) :
    config.Same config' where
  disabled := .of_forall_mem_iff fun name => by rw [h.disabled, h'.disabled]
  versions := .of_forall_constGet?_eq fun family => Option.ext fun n => by
    rw [← Std.TreeMap.get?_eq_getElem?, ← Std.TreeMap.get?_eq_getElem?]
    exact (h.versions family n).trans (h'.versions family n).symm
  verbose := Bool.eq_iff_iff.mpr (h.verbose.trans h'.verbose.symm)

/-- The first word that writes no setting is what a text is refused for. -/
theorem mapM_read_eq_error {fault : ConfigFault} : ws.mapM Setting.read = .error fault ↔
    ∃ word, (ws.filter (isAbout none)).head? = some word ∧
      Setting.read word = .error fault := by
  induction ws with
  | nil => exact iff_of_false nofun (by rintro ⟨word, h, -⟩; cases h)
  | cons word ws ih =>
    cases hread : Setting.read word with
    | ok s =>
      have htopic : ¬isAbout none word = true := by
        rw [Setting.isAbout_iff, Setting.topic?_of_writes (Setting.writes_of_read hread)]
        exact nofun
      rw [List.filter_cons_of_neg htopic, ← ih, List.mapM_cons, hread]
      cases ws.mapM Setting.read with
      | ok settings => exact iff_of_false nofun nofun
      | error fault' => exact Iff.rfl
    | error fault' =>
      have htopic : isAbout none word = true := by
        rw [Setting.isAbout_iff, topic?, hread]
        rfl
      have hfails : (word :: ws).mapM Setting.read = .error fault' := by
        rw [List.mapM_cons, hread]
        rfl
      rw [List.filter_cons_of_pos htopic, List.head?_cons, hfails]
      constructor
      · exact fun h => ⟨word, rfl, Except.error.inj h ▸ hread⟩
      · rintro ⟨word', hword, hfault⟩
        obtain rfl := Option.some.inj hword
        exact congrArg Except.error (Except.error.inj (hread.symm.trans hfault))

theorem sameOutcome_of_sameByTopic {text text' : String}
    (h : SameByTopic (words text) (words text')) : SameOutcome (read text) (read text') := by
  cases hread : (words text).mapM Setting.read with
  | ok settings =>
    have hwrites := (Except.mapM_eq_ok.mp hread).imp fun _ _ => Setting.writes_of_read
    have hconfig : read text = .ok (ofSettings settings) := by rw [read, hread]
    obtain ⟨config', hconfig'⟩ : ∃ config', read text' = .ok config' := by
      refine exists_read_iff.mpr fun word hword => ?_
      exact exists_read_iff.mp ⟨_, hconfig⟩ word (h.mem_iff.mpr hword)
    obtain ⟨settings', hwrites', rfl⟩ := read_eq_ok.mp hconfig'
    rw [hconfig, hconfig']
    exact .ok (((reflects_ofSettings hwrites).of_sameByTopic h).same (reflects_ofSettings hwrites'))
  | error fault =>
    have hread' : (words text').mapM Setting.read = .error fault := by
      rw [mapM_read_eq_error, ← h, ← mapM_read_eq_error]
      exact hread
    rw [read, read, hread, hread']
    exact .error _

/-- The words of a text are its runs between commas and blanks. The text is a configuration exactly
if each of them writes a setting, and then the configuration is what the words ask for. Words about
different things can change places, and words of no meaning with those. -/
theorem read_spec (text : String) :
    (∀ found, Text.Runs separates text.toList found ↔ found = words text) ∧
      ((∃ config, read text = .ok config) ↔ ∀ word ∈ words text, ∃ s, Writes word s) ∧
      (∀ config, read text = .ok config → config.Reflects (words text)) ∧
      ∀ text', SameByTopic (words text) (words text') → SameOutcome (read text) (read text') := by
  refine ⟨fun found => Text.runs_iff, exists_read_iff, ?_, fun _ => sameOutcome_of_sameByTopic⟩
  intro config h
  obtain ⟨settings, hwrites, rfl⟩ := read_eq_ok.mp h
  exact reflects_ofSettings hwrites

/-- The last version counts, and words about other things can stand anywhere. -/
theorem read_spec_reordered :
    let text := "spring=1 --verbose,spring=+02"
    let text' := "--verbose,, spring=1\tspring=+02,"
    SameByTopic (words text) (words text') ∧ SameOutcome (read text) (read text') ∧
      ∃ config, read text = .ok config ∧ config.versions["spring"]? = some 2 := by
  intro text text'
  have hwords : words text = ["spring=1".toList, "--verbose".toList, "spring=+02".toList] := by
    decide +kernel
  have hwords' : words text' = ["--verbose".toList, "spring=1".toList, "spring=+02".toList] := by
    decide +kernel
  have hfirst : Writes "spring=1".toList (.version "spring" 1) := Setting.writes_of_read rfl
  have hlast : Writes "spring=+02".toList (.version "spring" 2) := Setting.writes_of_read rfl
  have hsame : SameByTopic (words text) (words text') := by
    intro topic
    rw [hwords, hwords']
    by_cases htopic : topic? "--verbose".toList = topic
    · obtain rfl := htopic
      rfl
    · simp only [List.filter_cons, isAbout, htopic, decide_false, Bool.false_eq_true, if_false]
  obtain ⟨-, hread, hreflects, hreorder⟩ := read_spec text
  obtain ⟨config, hconfig⟩ : ∃ config, read text = .ok config := by
    rw [hread, hwords]
    intro word hword
    simp only [List.mem_cons, List.not_mem_nil, or_false] at hword
    obtain rfl | rfl | rfl := hword
    · exact ⟨_, hfirst⟩
    · exact ⟨_, .verbose⟩
    · exact ⟨_, hlast⟩
  refine ⟨hsame, hreorder text' hsame, config, hconfig, ?_⟩
  rw [(hreflects config hconfig).versions, hwords]
  exact ⟨["spring=1".toList, "--verbose".toList], _, [], rfl, hlast, nofun⟩

end Config
end ClassPatch
