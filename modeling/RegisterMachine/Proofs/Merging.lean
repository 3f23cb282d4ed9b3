import RegisterMachine.Proofs.Layers

/-!
# The algebra of layers

Layers of settings are merged two by two. It does not matter in which order that is done, as long as
the layers stay in their order: merging is associative, and settings without any section are neutral
(`Settings.Grouping.result_eq`).

Settings are told apart by the sections that they have and by the values of the single settings
(`Settings.ext_values`). A merged layer has a section if one of the two layers has it
(`Settings.hasSection_merge`), and the upper value of a setting if there is one
(`Setting.value?_merge`). So each law of merging comes down to a law of `||` and one of `Option.or`.
Sections count even if nothing is set in them: a layer with an empty section is not the same as one
without the section.
-/

namespace RegisterMachine

attribute [ext] RuntimeSettings DebugSettings LibrarySettings

inductive SettingsSection where
  | runtime
  | debug
  | libraries
  deriving DecidableEq, Repr

namespace Settings

def hasSection (s : Settings) : SettingsSection → Bool
  | .runtime => s.runtime.isSome
  | .debug => s.debug.isSome
  | .libraries => s.libraries.isSome

/-! ### Settings by their values -/

/-- Sections that may be missing are equal if none is missing alone, and if those that are there are
equal. -/
theorem section_eq {σ : Type} {o o' : Option σ} (hthere : o.isSome = o'.isSome)
    (heq : ∀ x x', o = some x → o' = some x' → x = x') : o = o' := by
  cases o with
  | none => exact (Option.not_isSome_iff_eq_none.1 (Bool.eq_false_iff.1 hthere.symm)).symm
  | some x =>
    obtain ⟨x', rfl⟩ := Option.isSome_iff_exists.1 hthere.symm
    exact congrArg some (heq x x' rfl rfl)

/-- Settings are their sections and the values that are set in them. -/
theorem ext_values {s t : Settings} (hsections : ∀ k, s.hasSection k = t.hasSection k)
    (hvalues : ∀ (α : Type) (x : Setting α), x.value? s = x.value? t) : s = t := by
  obtain ⟨runtime, debug, libraries⟩ := s
  obtain ⟨runtime', debug', libraries'⟩ := t
  have hruntime : runtime = runtime' := by
    refine section_eq (hsections .runtime) ?_
    rintro x x' rfl rfl
    exact RuntimeSettings.ext (hvalues _ .maxCallDepth) (hvalues _ .stackCapacity)
  have hdebug : debug = debug' := by
    refine section_eq (hsections .debug) ?_
    rintro x x' rfl rfl
    exact DebugSettings.ext (hvalues _ .hookMode) (hvalues _ .hookCount)
      (hvalues _ .traceCallTargets) (hvalues _ .maxTraceRecords)
  have hlibraries : libraries = libraries' := by
    refine section_eq (hsections .libraries) ?_
    rintro x x' rfl rfl
    exact LibrarySettings.ext (hvalues _ (.library .vec3)) (hvalues _ (.library .vec4))
      (hvalues _ (.library .mat4))
  rw [hruntime, hdebug, hlibraries]

/-! ### Laws -/

theorem isSome_mergeSection {σ : Type} (merge : σ → σ → σ) (empty : σ) (lower upper : Option σ) :
    (mergeSection merge empty lower upper).isSome = (lower.isSome || upper.isSome) := by
  cases upper with
  | none => exact (Bool.or_false _).symm
  | some u => exact (Bool.or_true _).symm

theorem hasSection_merge (lower upper : Settings) (k : SettingsSection) :
    (lower.merge upper).hasSection k = (lower.hasSection k || upper.hasSection k) := by
  cases k with
  | runtime | debug | libraries => exact isSome_mergeSection _ _ _ _

theorem hasSection_empty (k : SettingsSection) : empty.hasSection k = false := by
  cases k <;> rfl

theorem value?_empty {α : Type} (x : Setting α) : x.value? empty = none := by
  cases x <;> rfl

theorem merge_assoc (a b c : Settings) : (a.merge b).merge c = a.merge (b.merge c) := by
  refine ext_values (fun k => ?_) fun α x => ?_
  · simp only [hasSection_merge, Bool.or_assoc]
  · simp only [Setting.value?_merge, Option.or_assoc]

theorem empty_merge (a : Settings) : empty.merge a = a := by
  refine ext_values (fun k => ?_) fun α x => ?_
  · rw [hasSection_merge, hasSection_empty, Bool.false_or]
  · rw [Setting.value?_merge, value?_empty, Option.or_none]

theorem merge_empty (a : Settings) : a.merge empty = a := by
  refine ext_values (fun k => ?_) fun α x => ?_
  · rw [hasSection_merge, hasSection_empty, Bool.or_false]
  · rw [Setting.value?_merge, value?_empty, Option.none_or]

theorem merge_self (a : Settings) : a.merge a = a := by
  refine ext_values (fun k => ?_) fun α x => ?_
  · rw [hasSection_merge, Bool.or_self]
  · rw [Setting.value?_merge, Option.or_self]

instance : Std.Associative merge := ⟨merge_assoc⟩

theorem merge_merge_self (a b : Settings) : (a.merge b).merge b = a.merge b := by
  rw [merge_assoc, merge_self]

/-! ### Any number of layers -/

def mergeAll (layers : List Settings) : Settings := layers.foldl merge empty

theorem mergeAll_append (lower upper : List Settings) :
    mergeAll (lower ++ upper) = (mergeAll lower).merge (mergeAll upper) := by
  unfold mergeAll
  rw [List.foldl_append, ← merge_empty (lower.foldl merge empty), List.foldl_assoc, merge_empty]

theorem mergeAll_cons (s : Settings) (layers : List Settings) :
    mergeAll (s :: layers) = s.merge (mergeAll layers) := by
  rw [← List.singleton_append, mergeAll_append]
  exact congrArg (Settings.merge · _) (empty_merge s)

/-- A setting has its value from the highest layer that sets it. -/
theorem value?_mergeAll {α : Type} (x : Setting α) (layers : List Settings) :
    x.value? (mergeAll layers) = layers.reverse.findSome? x.value? := by
  induction layers with
  | nil => exact value?_empty x
  | cons s layers ih =>
    rw [mergeAll_cons, Setting.value?_merge, ih, List.reverse_cons, List.findSome?_append,
      List.findSome?_singleton]

theorem hasSection_mergeAll (k : SettingsSection) (layers : List Settings) :
    (mergeAll layers).hasSection k = layers.any (·.hasSection k) := by
  induction layers with
  | nil => exact hasSection_empty k
  | cons s layers ih => rw [mergeAll_cons, hasSection_merge, ih, List.any_cons]

/-- An order in which layers are merged two by two. -/
inductive Grouping where
  | layer (s : Settings)
  | merged (lower upper : Grouping)

namespace Grouping

def layers : Grouping → List Settings
  | layer s => [s]
  | merged lower upper => lower.layers ++ upper.layers

def result : Grouping → Settings
  | layer s => s
  | merged lower upper => lower.result.merge upper.result

/-- However layers are grouped, they come to the same as one after the other. -/
theorem result_eq (g : Grouping) : g.result = mergeAll g.layers := by
  induction g with
  | layer s => exact (empty_merge s).symm
  | merged lower upper ihl ihu => rw [result, layers, mergeAll_append, ihl, ihu]

end Grouping

/-- **Layers of settings form a monoid in which the upper one has its way.** Merging is associative,
the empty settings are neutral, and a layer that is merged twice counts once. A setting of merged
layers has its value from the upper one if it is set there, and otherwise from the lower one; a
section is there if it is in one of them. So layers may be grouped at will: the result has each
section that one of the layers has, and each setting as in the highest layer that sets it. -/
theorem layers_form_a_monoid :
    (∀ a b c : Settings, (a.merge b).merge c = a.merge (b.merge c)) ∧
    (∀ a : Settings, empty.merge a = a ∧ a.merge empty = a) ∧
    (∀ a b : Settings, a.merge a = a ∧ (a.merge b).merge b = a.merge b) ∧
    (∀ (a b : Settings) (α : Type) (x : Setting α),
      x.value? (a.merge b) = (x.value? b).or (x.value? a)) ∧
    (∀ (a b : Settings) (k : SettingsSection),
      (a.merge b).hasSection k = (a.hasSection k || b.hasSection k)) ∧
    ∀ g : Grouping, g.result = mergeAll g.layers ∧
      (∀ (α : Type) (x : Setting α), x.value? g.result = g.layers.reverse.findSome? x.value?) ∧
      ∀ k : SettingsSection, g.result.hasSection k = g.layers.any (·.hasSection k) := by
  refine ⟨merge_assoc, fun a => ⟨empty_merge a, merge_empty a⟩,
    fun a b => ⟨merge_self a, merge_merge_self a b⟩, fun a b _ x => Setting.value?_merge x a b,
    hasSection_merge, fun g => ⟨g.result_eq, fun _ x => ?_, fun k => ?_⟩⟩
  · rw [g.result_eq, value?_mergeAll]
  · rw [g.result_eq, hasSection_mergeAll]

/-- A section in which nothing is set stays. -/
example : merge { debug := some {} } { runtime := some { maxCallDepth := some 64 } } =
    { runtime := some { maxCallDepth := some 64 }, debug := some {} } := by decide

end Settings

end RegisterMachine
