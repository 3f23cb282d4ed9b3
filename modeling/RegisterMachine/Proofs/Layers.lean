import RegisterMachine.CommandLine.Perform
import RegisterMachine.Proofs.Failing

/-!
# Layers of settings

Which value of a setting is in force, and which layers are accepted. A setting is looked up in the
variables, then in the file of the project, then in the file of the user, and the first of them that
has it decides (`Layers.value?`). Nothing is said here of sections: that a section may be missing in
a layer, and be there in another, is what merging has to get right (`Setting.value?_merge`).

Only the settings in force are checked (`Layers.IsValid`). A file that asks for a hook that counts
and gives no count is accepted if another layer gives one. A project's file has to be readable, a
user's file need not be, nor be there at all: `Layers.FoundBy` says which layers there are, whatever
the surroundings hold.
-/

namespace RegisterMachine

/-- The settings, each with the type of its values. -/
inductive Setting : Type → Type where
  | maxCallDepth : Setting Nat
  | stackCapacity : Setting Nat
  | hookMode : Setting HookMode
  | hookCount : Setting Nat
  | traceCallTargets : Setting Bool
  | maxTraceRecords : Setting Nat
  | library (library : Library) : Setting Bool

namespace Setting

variable {α : Type}

/-- The value of a setting in a layer, if the layer has it. -/
def value? : Setting α → Settings → Option α
  | maxCallDepth, s => s.runtime.bind (·.maxCallDepth)
  | stackCapacity, s => s.runtime.bind (·.stackCapacity)
  | hookMode, s => s.debug.bind (·.hook)
  | hookCount, s => s.debug.bind (·.count)
  | traceCallTargets, s => s.debug.bind (·.traceCallTargets)
  | maxTraceRecords, s => s.debug.bind (·.maxTraceRecords)
  | library l, s => s.libraries.bind (·.flag l)

def fallback : Setting α → α
  | maxCallDepth => 200
  | stackCapacity => 256
  | hookMode => .everyInstruction
  | hookCount => 1
  | traceCallTargets => true
  | maxTraceRecords => 100000
  | library _ => true

def inForce : Setting α → Settings → α
  | maxCallDepth, s => s.maxCallDepth
  | stackCapacity, s => s.stackCapacity
  | hookMode, s => s.hookMode
  | hookCount, s => s.hookCount
  | traceCallTargets, s => s.traceCallTargets
  | maxTraceRecords, s => s.maxTraceRecords
  | library l, s => s.libraryEnabled l

/-- The variable of a setting, if it has one, and how a text without blanks around it is read. -/
def source? : Setting α → Option (String × (String → Option α))
  | maxCallDepth => some ("LUNAR_MAX_CALL_DEPTH", Natural.ofText? UInt64.size)
  | hookMode => some ("LUNAR_HOOK", HookMode.ofText?)
  | hookCount => some ("LUNAR_HOOK_COUNT", Natural.ofText? UInt32.size)
  | stackCapacity | traceCallTargets | maxTraceRecords | library _ => none

/-- The value of a setting in the variables, if it is there and can be read. -/
def ofVariables? (x : Setting α) (getVariable : String → Option String) : Option α := do
  let (name, read) ← x.source?
  read (trimBlanks (← getVariable name))

/-- The variable of a setting can be read if it is there. -/
def IsReadable (x : Setting α) (getVariable : String → Option String) : Prop :=
  ∀ name read, x.source? = some (name, read) →
    ∀ text, getVariable name = some text → (read (trimBlanks text)).isSome

/-! ### Merging -/

theorem overlay_eq {β : Type} (lower upper : Option β) : overlay lower upper = upper.or lower := by
  cases upper <;> rfl

/-- What is read of a section that one of two layers has. -/
theorem bind_mergeSection {σ β : Type} {merge : σ → σ → σ} {empty : σ} {read : σ → Option β}
    (hempty : read empty = none)
    (hmerge : ∀ lower upper, read (merge lower upper) = (read upper).or (read lower))
    (lower upper : Option σ) :
    (mergeSection merge empty lower upper).bind read = (upper.bind read).or (lower.bind read) := by
  cases upper with
  | none => rfl
  | some u =>
    cases lower with
    | none =>
      change read (merge empty u) = (read u).or none
      rw [hmerge, hempty]
    | some l => exact hmerge l u

theorem value?_merge (x : Setting α) (lower upper : Settings) :
    x.value? (lower.merge upper) = (x.value? upper).or (x.value? lower) := by
  cases x with
  | maxCallDepth | stackCapacity | hookMode | hookCount | traceCallTargets | maxTraceRecords =>
    exact bind_mergeSection rfl (fun _ _ => overlay_eq _ _) _ _
  | library l =>
    cases l with
    | vec3 | vec4 | mat4 => exact bind_mergeSection rfl (fun _ _ => overlay_eq _ _) _ _

/-- A setting that is there is in force, unless it is a count of zero. -/
theorem inForce_eq (x : Setting α) (s : Settings) (hcount : hookCount.value? s ≠ some 0) :
    x.inForce s = (x.value? s).getD x.fallback := by
  cases x with
  | hookCount =>
    change max ((hookCount.value? s).getD 1) 1 = (hookCount.value? s).getD 1
    cases hvalue : hookCount.value? s with
    | none => rfl
    | some n =>
      rw [hvalue] at hcount
      have hn : n ≠ 0 := fun hn => hcount (congrArg some hn)
      rw [Option.getD_some]
      omega
  | maxCallDepth | stackCapacity | hookMode | traceCallTargets | maxTraceRecords | library => rfl

end Setting

/-! ### The layers -/

/-- The layers above the built-in values: two files, and the variables. -/
structure Layers where
  user : Settings
  project : Settings
  getVariable : String → Option String

namespace Layers

variable {α : Type}

def value? (l : Layers) (x : Setting α) : Option α :=
  (x.ofVariables? l.getVariable).or ((x.value? l.project).or (x.value? l.user))

def IsReadable (l : Layers) : Prop := ∀ (α : Type) (x : Setting α), x.IsReadable l.getVariable

/-- The settings of the highest layers go together. -/
structure IsValid (l : Layers) : Prop where
  depth : l.value? .maxCallDepth ≠ some 0
  count : l.value? .hookCount ≠ some 0
  counts : l.value? .hookMode = some .count → (l.value? .hookCount).isSome

end Layers

/-- The file at a path can be read, and holds a layer of settings. -/
def Surroundings.HoldsSettings (s : Surroundings) (path : String) (settings : Settings) : Prop :=
  ∃ text, s.read path = .ok text ∧ Settings.ofText? text = some settings

/-- The user has a file, and it holds a layer of settings. -/
def Surroundings.UserHas (s : Surroundings) (userFile : Option String) (settings : Settings) :
    Prop :=
  ∃ path, (userFile <|> Settings.userFile? s.home?) = some path ∧ s.hasPath path = true ∧
    s.HoldsSettings path settings

/-- Where the settings of a project come from: a file that is given, or the one that belongs to a
directory. -/
inductive ProjectSource where
  | file (path : String)
  | directory (path : String)

namespace ProjectSource

def file? (s : Surroundings) : ProjectSource → Option String
  | file path => some path
  | directory path =>
    (Configuration.projectRoot? s path).map (Path.join · Configuration.projectFile)

def root? (s : Surroundings) : ProjectSource → Option String
  | file path => Path.parent? path
  | directory path => Configuration.projectRoot? s path

def load (s : Surroundings) (userFile : Option String) :
    ProjectSource → Except SettingsError Configuration
  | file path => Configuration.ofFile s userFile path
  | directory path => Configuration.ofDirectory s userFile path

/-- The source that the options of a command name. Without options it is the current directory, if
this is known. -/
def ofOptions? (s : Surroundings) (options : CommonOptions) : Option ProjectSource :=
  match options.config with
  | some path => some (file path)
  | none => s.directory.toOption.map directory

end ProjectSource

/-- The layers are those of some surroundings. The file of the project, if there is one, holds its
layer. A user without a file that holds settings has the empty layer. -/
structure Layers.FoundBy (l : Layers) (s : Surroundings) (userFile : Option String)
    (source : ProjectSource) : Prop where
  getVariable : l.getVariable = s.getVariable
  project : ∀ path, source.file? s = some path → s.HoldsSettings path l.project
  noProject : source.file? s = none → l.project = .empty
  user : ∀ settings, s.UserHas userFile settings → l.user = settings
  noUser : (∀ settings, ¬ s.UserHas userFile settings) → l.user = .empty

namespace Settings

variable {s : Surroundings}

theorem ofFile_eq_ok {path : String} {settings : Settings} :
    ofFile s path = .ok settings ↔ s.HoldsSettings path settings := by
  unfold ofFile Surroundings.HoldsSettings
  cases s.read path with
  | error fault => cases fault <;> simp
  | ok text =>
    cases h : ofText? text with
    | none => simp [h]
    | some found => simp [h]

/-- A user's file that holds settings is the layer of the user. -/
theorem ofUser_eq {userFile : Option String} {settings : Settings}
    (h : s.UserHas userFile settings) : ofUser s userFile = settings := by
  obtain ⟨path, hpath, hthere, hholds⟩ := h
  rw [ofUser, hpath]
  dsimp only
  rw [if_pos hthere, ofFile_eq_ok.2 hholds]
  rfl

theorem ofUser_eq_empty {userFile : Option String} (h : ∀ settings, ¬ s.UserHas userFile settings) :
    ofUser s userFile = empty := by
  unfold ofUser
  cases hpath : (userFile <|> userFile? s.home?) with
  | none => rfl
  | some path =>
    dsimp only
    split
    · rename_i hthere
      cases hfile : ofFile s path with
      | error e => rfl
      | ok found => exact absurd ⟨path, hpath, hthere, ofFile_eq_ok.1 hfile⟩ (h found)
    · rfl

theorem invalid?_eq_none {settings : Settings} :
    settings.invalid? = none ↔
      Setting.maxCallDepth.value? settings ≠ some 0 ∧ Setting.hookCount.value? settings ≠ some 0 ∧
        (Setting.hookMode.value? settings = some .count →
          (Setting.hookCount.value? settings).isSome) := by
  obtain ⟨runtime, debug, libraries⟩ := settings
  -- a missing section is checked like an empty one
  have hdepth : Setting.maxCallDepth.value? ⟨runtime, debug, libraries⟩ =
      (runtime.getD {}).maxCallDepth := by cases runtime <;> rfl
  have hcount : Setting.hookCount.value? ⟨runtime, debug, libraries⟩ =
      (debug.getD {}).count := by cases debug <;> rfl
  have hmode : Setting.hookMode.value? ⟨runtime, debug, libraries⟩ =
      (debug.getD {}).hook := by cases debug <;> rfl
  rw [hdepth, hcount, hmode, invalid?, Option.isSome_iff_ne_none, ne_eq,
    ← Option.isNone_iff_eq_none]
  dsimp only
  by_cases hd : (runtime.getD {}).maxCallDepth = some 0
  · rw [if_pos hd]
    exact ⟨nofun, fun h => absurd hd h.1⟩
  · rw [if_neg hd]
    by_cases hc : (debug.getD {}).count = some 0
    · rw [if_pos hc]
      exact ⟨nofun, fun h => absurd hc h.2.1⟩
    · rw [if_neg hc]
      simp [hd, hc]

/-! ### The variables -/

def readVariable {β : Type} (read : String → Option β) (defect : String → SettingsError) :
    Option String → Except SettingsError (Option β)
  | none => .ok none
  | some text =>
    match read (trimBlanks text) with
    | some b => .ok (some b)
    | none => .error (defect text)

theorem readVariable_eq_ok {β : Type} {read : String → Option β} {defect : String → SettingsError}
    {found : Option String} {value : Option β} :
    readVariable read defect found = .ok value ↔
      (∀ text, found = some text → (read (trimBlanks text)).isSome) ∧
        value = found.bind fun text => read (trimBlanks text) := by
  cases found with
  | none =>
    constructor
    · rintro ⟨⟩
      exact ⟨nofun, rfl⟩
    · rintro ⟨-, rfl⟩
      rfl
  | some text =>
    rw [readVariable, Option.bind_some]
    cases h : read (trimBlanks text) with
    | none =>
      refine ⟨nofun, fun hread => ?_⟩
      have hsome := hread.1 text rfl
      rw [h] at hsome
      cases hsome
    | some b =>
      constructor
      · rintro ⟨⟩
        refine ⟨fun text' htext => ?_, rfl⟩
        rw [← Option.some.inj htext, h]
        rfl
      · rintro ⟨-, rfl⟩
        rfl

theorem readVariable_source {α : Type} {x : Setting α} {name : String} {read : String → Option α}
    (hx : x.source? = some (name, read)) (s : Surroundings) (defect : String → SettingsError)
    (value : Option α) :
    readVariable read defect (s.getVariable name) = .ok value ↔
      x.IsReadable s.getVariable ∧ value = x.ofVariables? s.getVariable := by
  have hreadable : x.IsReadable s.getVariable ↔
      ∀ text, s.getVariable name = some text → (read (trimBlanks text)).isSome := by
    constructor
    · intro h
      exact h name read hx
    · intro h name' read' hx'
      obtain ⟨rfl, rfl⟩ := Prod.mk.inj (Option.some.inj (hx.symm.trans hx'))
      exact h
  have hvalue : x.ofVariables? s.getVariable =
      (s.getVariable name).bind fun text => read (trimBlanks text) := by
    rw [Setting.ofVariables?, hx]
    rfl
  rw [readVariable_eq_ok, hreadable, hvalue]

theorem countVariable_eq (s : Surroundings) (bound : Nat) (name : String) :
    countVariable s bound name = readVariable (Natural.ofText? bound)
      (fun text => .invalid (.invalidValue name s!"expected a positive integer, got '{text}'"))
      (s.getVariable name) := by
  unfold countVariable
  cases s.getVariable name with
  | none => rfl
  | some text =>
    dsimp only [readVariable]
    cases Natural.ofText? bound (trimBlanks text) <;> rfl

theorem modeVariable_eq (s : Surroundings) (name : String) :
    modeVariable s name = readVariable HookMode.ofText?
      (fun text => .invalid (.invalidValue name
        s!"must be 'every-instruction', 'calls', or 'count', got '{text}'"))
      (s.getVariable name) := by
  unfold modeVariable
  cases s.getVariable name with
  | none => rfl
  | some text =>
    dsimp only [readVariable]
    cases HookMode.ofText? (trimBlanks text) <;> rfl

def layerOf (getVariable : String → Option String) : Settings :=
  let depth := Setting.maxCallDepth.ofVariables? getVariable
  let hook := Setting.hookMode.ofVariables? getVariable
  let count := Setting.hookCount.ofVariables? getVariable
  { runtime := if depth.isSome then some { maxCallDepth := depth } else none
    debug := if hook.isSome || count.isSome then some { hook, count } else none }

theorem ofVariables_eq_ok {top : Settings} :
    ofVariables s = .ok top ↔
      (∀ (α : Type) (x : Setting α), x.IsReadable s.getVariable) ∧ top = layerOf s.getVariable := by
  have hdepth := readVariable_source (x := .maxCallDepth) rfl s fun text =>
    .invalid (.invalidValue "LUNAR_MAX_CALL_DEPTH" s!"expected a positive integer, got '{text}'")
  have hmode := readVariable_source (x := .hookMode) rfl s fun text =>
    .invalid (.invalidValue "LUNAR_HOOK"
      s!"must be 'every-instruction', 'calls', or 'count', got '{text}'")
  have hcount := readVariable_source (x := .hookCount) rfl s fun text =>
    .invalid (.invalidValue "LUNAR_HOOK_COUNT" s!"expected a positive integer, got '{text}'")
  unfold ofVariables
  rw [countVariable_eq, modeVariable_eq, countVariable_eq]
  simp only [bind_eq_ok, hdepth, hmode, hcount]
  constructor
  · rintro ⟨_, ⟨hd, rfl⟩, _, ⟨hm, rfl⟩, _, ⟨hc, rfl⟩, htop⟩
    refine ⟨fun α x => ?_, (Except.ok.inj htop).symm⟩
    cases x with
    | maxCallDepth => exact hd
    | hookMode => exact hm
    | hookCount => exact hc
    | stackCapacity | traceCallTargets | maxTraceRecords | library => exact nofun
  · rintro ⟨hreadable, rfl⟩
    exact ⟨_, ⟨hreadable _ .maxCallDepth, rfl⟩, _, ⟨hreadable _ .hookMode, rfl⟩, _,
      ⟨hreadable _ .hookCount, rfl⟩, rfl⟩

/-- The sections of the layer of the variables are there exactly if they have something to hold. -/
theorem value?_layerOf {α : Type} (x : Setting α) (getVariable : String → Option String) :
    x.value? (layerOf getVariable) = x.ofVariables? getVariable := by
  unfold layerOf
  generalize hd : Setting.maxCallDepth.ofVariables? getVariable = depth
  generalize hm : Setting.hookMode.ofVariables? getVariable = mode
  generalize hc : Setting.hookCount.ofVariables? getVariable = count
  cases x with
  | maxCallDepth =>
    rw [hd]
    cases depth <;> rfl
  | hookMode =>
    rw [hm]
    cases mode <;> cases count <;> rfl
  | hookCount =>
    rw [hc]
    cases mode <;> cases count <;> rfl
  | stackCapacity =>
    cases depth <;> rfl
  | traceCallTargets | maxTraceRecords =>
    cases mode <;> cases count <;> rfl
  | library => rfl

end Settings

/-! ### Loading -/

namespace Layers

variable {s : Surroundings} {userFile : Option String} {source : ProjectSource} {l : Layers}

def merged (l : Layers) : Settings :=
  (l.user.merge l.project).merge (Settings.layerOf l.getVariable)

theorem value?_merged {α : Type} (l : Layers) (x : Setting α) : x.value? l.merged = l.value? x := by
  rw [merged, Setting.value?_merge, Setting.value?_merge, Settings.value?_layerOf, value?]

theorem invalid?_merged (l : Layers) : l.merged.invalid? = none ↔ l.IsValid := by
  rw [Settings.invalid?_eq_none, value?_merged, value?_merged, value?_merged]
  constructor
  · rintro ⟨hdepth, hcount, hcounts⟩
    exact ⟨hdepth, hcount, hcounts⟩
  · rintro ⟨hdepth, hcount, hcounts⟩
    exact ⟨hdepth, hcount, hcounts⟩

theorem FoundBy.user_eq (h : l.FoundBy s userFile source) :
    l.user = Settings.ofUser s userFile := by
  by_cases hfile : ∃ settings, s.UserHas userFile settings
  · obtain ⟨settings, hsettings⟩ := hfile
    rw [h.user settings hsettings, Settings.ofUser_eq hsettings]
  · have hnone : ∀ settings, ¬ s.UserHas userFile settings := not_exists.1 hfile
    rw [h.noUser hnone, Settings.ofUser_eq_empty hnone]

theorem foundBy_ofUser {project : Settings}
    (hproject : ∀ path, source.file? s = some path → s.HoldsSettings path project)
    (hnone : source.file? s = none → project = .empty) :
    FoundBy ⟨Settings.ofUser s userFile, project, s.getVariable⟩ s userFile source where
  getVariable := rfl
  project := hproject
  noProject := hnone
  user _ := Settings.ofUser_eq
  noUser := Settings.ofUser_eq_empty

end Layers

namespace Configuration

variable {s : Surroundings} {userFile : Option String} {source : ProjectSource}

theorem assemble_eq_ok {project : Settings} {root : Option String} {c : Configuration} :
    let l : Layers := ⟨Settings.ofUser s userFile, project, s.getVariable⟩
    assemble s userFile project root = .ok c ↔ l.IsReadable ∧ l.IsValid ∧ c = ⟨l.merged, root⟩ := by
  intro l
  have hmerged : ((Settings.ofUser s userFile).merge project).merge
      (Settings.layerOf s.getVariable) = l.merged := rfl
  unfold assemble
  rw [bind_eq_ok, ← l.invalid?_merged]
  simp only [Settings.ofVariables_eq_ok]
  constructor
  · rintro ⟨_, ⟨hreadable, rfl⟩, h⟩
    rw [hmerged] at h
    cases hinvalid : l.merged.invalid? with
    | some defect =>
      rw [hinvalid] at h
      cases h
    | none =>
      rw [hinvalid] at h
      exact ⟨hreadable, rfl, (Except.ok.inj h).symm⟩
  · rintro ⟨hreadable, hvalid, rfl⟩
    refine ⟨_, ⟨hreadable, rfl⟩, ?_⟩
    rw [hmerged, hvalid]
    rfl

/-- Loading finds the layer of the project and puts the layers on top of each other. -/
theorem load_eq_ok_iff {c : Configuration} :
    source.load s userFile = .ok c ↔
      ∃ project : Settings, (∀ path, source.file? s = some path → s.HoldsSettings path project) ∧
        (source.file? s = none → project = .empty) ∧
        assemble s userFile project (source.root? s) = .ok c := by
  cases source with
  | file path =>
    rw [ProjectSource.load, ofFile, bind_eq_ok]
    simp only [Settings.ofFile_eq_ok]
    constructor
    · rintro ⟨project, hholds, h⟩
      exact ⟨project, fun _ hpath => Option.some.inj hpath ▸ hholds, nofun, h⟩
    · rintro ⟨project, hholds, -, h⟩
      exact ⟨project, hholds path rfl, h⟩
  | directory path =>
    rw [ProjectSource.load, ofDirectory]
    simp only [ProjectSource.file?, ProjectSource.root?]
    cases projectRoot? s path with
    | none =>
      constructor
      · intro h
        exact ⟨.empty, nofun, fun _ => rfl, h⟩
      · rintro ⟨project, -, hempty, h⟩
        obtain rfl := hempty rfl
        exact h
    | some root =>
      dsimp only
      rw [bind_eq_ok]
      simp only [Settings.ofFile_eq_ok]
      constructor
      · rintro ⟨project, hholds, h⟩
        exact ⟨project, fun _ hpath => Option.some.inj hpath ▸ hholds, nofun, h⟩
      · rintro ⟨project, hholds, -, h⟩
        exact ⟨project, hholds _ rfl, h⟩

/-- What loading gives is the layers on top of each other, if all that has to be read can be read
and the settings in force are valid. -/
theorem load_eq_ok {c : Configuration} :
    source.load s userFile = .ok c ↔
      ∃ l : Layers, l.FoundBy s userFile source ∧ l.IsReadable ∧ l.IsValid ∧
        c = ⟨l.merged, source.root? s⟩ := by
  rw [load_eq_ok_iff]
  constructor
  · rintro ⟨project, hproject, hnone, h⟩
    obtain ⟨hreadable, hvalid, rfl⟩ := assemble_eq_ok.1 h
    exact ⟨_, Layers.foundBy_ofUser hproject hnone, hreadable, hvalid, rfl⟩
  · rintro ⟨l, hfound, hreadable, hvalid, rfl⟩
    obtain ⟨user, project, getVariable⟩ := l
    obtain rfl : getVariable = s.getVariable := hfound.getVariable
    obtain rfl : user = Settings.ofUser s userFile := hfound.user_eq
    exact ⟨project, hfound.project, hfound.noProject, assemble_eq_ok.2 ⟨hreadable, hvalid, rfl⟩⟩

end Configuration

theorem Layers.FoundBy.unique {s : Surroundings} {userFile : Option String}
    {source : ProjectSource} {l l' : Layers} (h : l.FoundBy s userFile source)
    (h' : l'.FoundBy s userFile source) : l = l' := by
  have huser : l.user = l'.user := h.user_eq.trans h'.user_eq.symm
  have hvariables : l.getVariable = l'.getVariable := h.getVariable.trans h'.getVariable.symm
  have hproject : l.project = l'.project := by
    cases hfile : source.file? s with
    | none => rw [h.noProject hfile, h'.noProject hfile]
    | some path =>
      have hholds := Settings.ofFile_eq_ok.2 (h.project path hfile)
      rw [Settings.ofFile_eq_ok.2 (h'.project path hfile)] at hholds
      exact (Except.ok.inj hholds).symm
  obtain ⟨user, project, getVariable⟩ := l
  obtain ⟨user', project', getVariable'⟩ := l'
  dsimp only at huser hvariables hproject
  subst huser hvariables hproject
  rfl

/-- The trigger counts exactly if the hook in force counts, and then by the count in force. -/
theorem Settings.trigger_eq_count_iff {settings : Settings} {pred : Nat} :
    settings.trigger = .count pred ↔
      settings.hookMode = .count ∧ settings.hookCount = pred + 1 := by
  have hpos : 1 ≤ settings.hookCount := Nat.le_max_right _ _
  unfold trigger
  cases settings.hookMode with
  | everyInstruction | calls => simp
  | count =>
    constructor
    · intro h
      refine ⟨rfl, ?_⟩
      have := Trigger.count.inj h
      omega
    · rintro ⟨-, h⟩
      rw [h, Nat.add_sub_cancel]

/-- The limit of depth on the machine of a command: the option wins over all settings. -/
theorem Command.maxCallDepth_prepare? (settings : Settings) (options : CommonOptions) :
    (Command.prepare? settings options).map (fun vm => vm.machine.maxCallDepth) =
      if settings.stackCapacity ≤ ValueStack.maxSize then
        some ((options.maxCallDepth.map (max · 1)).getD settings.maxCallDepth)
      else none := by
  unfold prepare? VirtualMachine.ofSettings?
  split
  · cases options.maxCallDepth <;> rfl
  · rfl

theorem Command.readConfiguration_eq_ok {s : Surroundings} {options : CommonOptions}
    {c : Configuration} :
    Command.readConfiguration s options = .ok c ↔
      ∃ source, ProjectSource.ofOptions? s options = some source ∧ source.load s none = .ok c := by
  have hone (source : ProjectSource) :
      (∃ other, some source = some other ∧ other.load s none = .ok c) ↔
        source.load s none = .ok c :=
    ⟨fun ⟨_, hother, h⟩ => Option.some.inj hother ▸ h, fun h => ⟨source, rfl, h⟩⟩
  unfold readConfiguration ProjectSource.ofOptions?
  cases options.config with
  | some path => exact mapError_eq_ok.trans (hone (.file path)).symm
  | none =>
    cases s.directory with
    | error fault => exact ⟨nofun, nofun⟩
    | ok directory => exact mapError_eq_ok.trans (hone (.directory directory)).symm

/-- **Settings come from the highest layer that has them.** Whatever the surroundings hold, loading
succeeds exactly if the layer of the project can be read, every variable that is there can be read,
and the settings in force are valid. Then each setting has the value of the highest layer that has
it, or its built-in value; some depth is always allowed; the trigger counts exactly if the hook in
force does, by the count in force; and on the machine of a command the option for the depth wins
over all of them. -/
theorem Configuration.layers_decide (s : Surroundings) (userFile : Option String)
    (source : ProjectSource) :
    ((∃ c, source.load s userFile = .ok c) ↔
      ∃ l : Layers, l.FoundBy s userFile source ∧ l.IsReadable ∧ l.IsValid) ∧
    (∀ (c : Configuration) (l : Layers),
      source.load s userFile = .ok c → l.FoundBy s userFile source →
      (∀ (α : Type) (x : Setting α), x.inForce c.settings = (l.value? x).getD x.fallback) ∧
      1 ≤ c.settings.maxCallDepth ∧
      (∀ pred, c.settings.trigger = .count pred ↔
        c.settings.hookMode = .count ∧ c.settings.hookCount = pred + 1) ∧
      ∀ options : CommonOptions,
        (Command.prepare? c.settings options).map (fun vm => vm.machine.maxCallDepth) =
          if c.settings.stackCapacity ≤ ValueStack.maxSize then
            some ((options.maxCallDepth.map (max · 1)).getD c.settings.maxCallDepth)
          else none) ∧
    ∀ (options : CommonOptions) (c : Configuration), Command.readConfiguration s options = .ok c ↔
      ∃ source, ProjectSource.ofOptions? s options = some source ∧ source.load s none = .ok c := by
  refine ⟨?_, ?_, fun options c => Command.readConfiguration_eq_ok⟩
  · constructor
    · rintro ⟨c, hc⟩
      obtain ⟨l, hfound, hreadable, hvalid, -⟩ := Configuration.load_eq_ok.1 hc
      exact ⟨l, hfound, hreadable, hvalid⟩
    · rintro ⟨l, hfound, hreadable, hvalid⟩
      exact ⟨_, Configuration.load_eq_ok.2 ⟨l, hfound, hreadable, hvalid, rfl⟩⟩
  · intro c l hc hfound
    obtain ⟨l', hfound', -, hvalid, rfl⟩ := Configuration.load_eq_ok.1 hc
    obtain rfl := hfound.unique hfound'
    have hforce (α : Type) (x : Setting α) :
        x.inForce l.merged = (l.value? x).getD x.fallback := by
      rw [Setting.inForce_eq x l.merged, l.value?_merged]
      rw [l.value?_merged]
      exact hvalid.count
    refine ⟨hforce, ?_, fun pred => Settings.trigger_eq_count_iff,
      Command.maxCallDepth_prepare? l.merged⟩
    have hdepth : l.merged.maxCallDepth = (l.value? .maxCallDepth).getD 200 :=
      hforce Nat .maxCallDepth
    have hpos := hvalid.depth
    rw [hdepth]
    cases hvalue : l.value? .maxCallDepth with
    | none => decide
    | some n =>
      rw [hvalue] at hpos
      have hn : n ≠ 0 := fun hn => hpos (congrArg some hn)
      rw [Option.getD_some]
      omega

end RegisterMachine
