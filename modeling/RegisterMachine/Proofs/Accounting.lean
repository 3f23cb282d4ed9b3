import RegisterMachine.Proofs.Rankings

/-!
# What a profiler has counted

A profiler is shown instructions, and is switched on and off and set back in between
(`ProfilerUse`). What it has counted after that is a list of instructions: those that it was shown
while it was on and after which it was not set back (`countedBy`). All that a profiler holds is said
in terms of this list (`Profiler.Counts`): its tables are the counts of the list, and the sums of
the tables are its length. Each instruction that is recorded adds itself to the list
(`Counts.record`), and switching leaves the list alone, so this holds after any uses
(`Counts.performAll`).

Nothing in it depends on the order of the list. Where instructions between two switches come in
another order (`Reordered`), the lists are permutations of each other, so the tables have the same
entries, and the rankings do not see in which order the entries stand (`HasMaps.rankings_eq`).
-/

namespace RegisterMachine

/-! ### Tables and their counts -/

namespace Tally

variable {κ : Type} [DecidableEq κ]

/-- The entries of a map are known from its keys and counts, up to their order. -/
theorem IsMap.perm_of_counts {t t' : Tally κ} (ht : t.IsMap) (ht' : t'.IsMap)
    (hkeys : ∀ key, key ∈ t.keys ↔ key ∈ t'.keys) (hcounts : ∀ key, t.count key = t'.count key) :
    t.entries.Perm t'.entries := by
  refine (List.perm_ext_iff_of_nodup ht.nodup_entries ht'.nodup_entries).2 fun e => ?_
  obtain ⟨key, count⟩ := e
  rw [ht.mem_entries_iff, ht'.mem_entries_iff, hkeys, hcounts]

/-- A tally holds how often each thing stands in a list. -/
structure CountsAll (t : Tally κ) (things : List κ) : Prop where
  isMap : t.IsMap
  keys : ∀ key, key ∈ t.keys ↔ key ∈ things
  count : ∀ key, t.count key = things.count key
  total : t.total = things.length

namespace CountsAll

variable {t t' : Tally κ} {things things' : List κ}

theorem empty : (Tally.empty : Tally κ).CountsAll [] :=
  ⟨isMap_empty, fun _ => Iff.rfl, fun _ => rfl, rfl⟩

theorem increment (h : t.CountsAll things) (thing : κ) :
    (t.increment thing).CountsAll (things ++ [thing]) where
  isMap := h.isMap.increment thing
  keys key := by
    rw [mem_keys_increment, h.keys, List.mem_append, List.mem_singleton]
    exact or_comm
  count key := by
    rw [count_increment, h.count, List.count_append, List.count_singleton]
    simp
  total := by rw [total_increment, h.total, List.length_append, List.length_singleton]

theorem perm (h : t.CountsAll things) (h' : t'.CountsAll things') (hperm : things.Perm things') :
    t.entries.Perm t'.entries := by
  refine h.isMap.perm_of_counts h'.isMap (fun key => ?_) (fun key => ?_)
  · rw [h.keys, h'.keys, hperm.mem_iff]
  · rw [h.count, h'.count, hperm.count_eq]

end CountsAll

end Tally

/-! ### Uses of a profiler -/

/-- An instruction as a profiler is shown it. -/
structure ProfiledInstruction where
  op : Opcode
  function : String
  position : SourcePosition
  deriving DecidableEq

/-- The line that an instruction belongs to, if its position is known. -/
def ProfiledInstruction.line? (i : ProfiledInstruction) : Option ProfiledLine :=
  if i.position.isUnknown then none else some ⟨i.function, i.position.line⟩

namespace ProfiledInstruction

variable {i : ProfiledInstruction}

theorem line?_of_unknown (h : i.position.isUnknown = true) : i.line? = none := if_pos h

theorem line?_of_known (h : i.position.isUnknown = false) :
    i.line? = some ⟨i.function, i.position.line⟩ := by
  simp [line?, h]

end ProfiledInstruction

inductive ProfilerControl where
  | enable
  | disable
  | reset
  deriving DecidableEq

inductive ProfilerUse where
  | record (i : ProfiledInstruction)
  | control (c : ProfilerControl)
  deriving DecidableEq

namespace ProfilerUse

/-- The instructions among some uses that are recorded while the profiler is on, and after which it
is not set back. -/
def countedBy (enabled : Bool) : List ProfilerUse → List ProfiledInstruction
  | [] => []
  | record i :: uses =>
    if enabled ∧ control .reset ∉ uses then i :: countedBy enabled uses
    else countedBy enabled uses
  | control .enable :: uses => countedBy true uses
  | control .disable :: uses => countedBy false uses
  | control .reset :: uses => countedBy enabled uses

example (i j k : ProfiledInstruction) :
    countedBy true [record i, control .reset, record j, control .disable, record k] = [j] := rfl

end ProfilerUse

namespace Profiler

def perform (p : Profiler) : ProfilerUse → Profiler
  | .record i => p.record i.op i.function i.position
  | .control .enable => p.enable
  | .control .disable => p.disable
  | .control .reset => p.reset

def performAll (p : Profiler) (uses : List ProfilerUse) : Profiler := uses.foldl perform p

theorem performAll_cons (p : Profiler) (use : ProfilerUse) (uses : List ProfilerUse) :
    p.performAll (use :: uses) = (p.perform use).performAll uses := rfl

theorem performAll_append (p : Profiler) (uses uses' : List ProfilerUse) :
    p.performAll (uses ++ uses') = (p.performAll uses).performAll uses' :=
  List.foldl_append

@[simp] theorem enabled_new (enabled : Bool) : (new enabled).enabled = enabled := rfl

@[simp] theorem enabled_enable (p : Profiler) : p.enable.enabled = true := rfl

@[simp] theorem enabled_disable (p : Profiler) : p.disable.enabled = false := rfl

@[simp] theorem enabled_reset (p : Profiler) : p.reset.enabled = p.enabled := rfl

@[simp] theorem enabled_record (p : Profiler) (op : Opcode) (function : String)
    (position : SourcePosition) : (p.record op function position).enabled = p.enabled := by
  unfold record
  split
  · rfl
  · dsimp only
    split <;> rfl

theorem record_of_disabled {p : Profiler} (h : p.enabled = false) (op : Opcode) (function : String)
    (position : SourcePosition) : p.record op function position = p := by
  simp [record, h]

/-! ### Accounts -/

/-- A profiler has counted the instructions of a list. -/
structure Counts (p : Profiler) (counted : List ProfiledInstruction) : Prop where
  total : p.total = counted.length
  opcodes : p.opcodes.CountsAll (counted.map ProfiledInstruction.op)
  lines : p.lines.CountsAll (counted.filterMap ProfiledInstruction.line?)
  unmapped : p.unmapped = counted.countP (·.position.isUnknown)

namespace Counts

variable {p q : Profiler} {counted counted' : List ProfiledInstruction}

theorem new (enabled : Bool) : (new enabled).Counts [] :=
  ⟨rfl, .empty, .empty, rfl⟩

theorem enable (h : p.Counts counted) : p.enable.Counts counted :=
  ⟨h.total, h.opcodes, h.lines, h.unmapped⟩

theorem disable (h : p.Counts counted) : p.disable.Counts counted :=
  ⟨h.total, h.opcodes, h.lines, h.unmapped⟩

theorem record (h : p.Counts counted) (henabled : p.enabled = true) (i : ProfiledInstruction) :
    (p.record i.op i.function i.position).Counts (counted ++ [i]) := by
  have hopcodes := h.opcodes.increment i.op
  rw [← List.map_singleton, ← List.map_append] at hopcodes
  simp only [Profiler.record, henabled, Bool.not_true, Bool.false_eq_true, if_false]
  cases hunknown : i.position.isUnknown with
  | true =>
    exact
      { total := by simp [h.total]
        opcodes := hopcodes
        lines := by simpa [ProfiledInstruction.line?_of_unknown hunknown] using h.lines
        unmapped := by simp [h.unmapped, hunknown] }
  | false =>
    exact
      { total := by simp [h.total]
        opcodes := hopcodes
        lines := by simpa [ProfiledInstruction.line?_of_known hunknown] using h.lines.increment _
        unmapped := by simp [h.unmapped, hunknown] }

theorem performAll (h : p.Counts counted) (uses : List ProfilerUse) :
    (p.performAll uses).Counts
      (if .control .reset ∈ uses then ProfilerUse.countedBy p.enabled uses
        else counted ++ ProfilerUse.countedBy p.enabled uses) := by
  induction uses generalizing p counted with
  | nil => simpa [ProfilerUse.countedBy, Profiler.performAll] using h
  | cons use uses ih =>
    rw [performAll_cons]
    cases use with
    | record i =>
      cases henabled : p.enabled with
      | true =>
        have hrest := ih (h.record henabled i)
        rw [enabled_record, henabled] at hrest
        by_cases hreset : .control .reset ∈ uses
        · simpa [ProfilerUse.countedBy, perform, hreset] using hrest
        · simpa [ProfilerUse.countedBy, perform, hreset] using hrest
      | false =>
        have hrest := ih h
        rw [henabled] at hrest
        simpa [ProfilerUse.countedBy, perform, record_of_disabled henabled] using hrest
    | control c =>
      cases c with
      | enable => simpa [ProfilerUse.countedBy, perform] using ih h.enable
      | disable => simpa [ProfilerUse.countedBy, perform] using ih h.disable
      | reset => simpa [ProfilerUse.countedBy, perform, reset] using ih (new p.enabled)

theorem hasMaps (h : p.Counts counted) : p.HasMaps := ⟨h.opcodes.isMap, h.lines.isMap⟩

theorem total_opcodes (h : p.Counts counted) : p.opcodes.total = p.total := by
  rw [h.opcodes.total, h.total, List.length_map]

theorem total_lines_add_unmapped (h : p.Counts counted) :
    p.lines.total + p.unmapped = p.total := by
  rw [h.lines.total, h.unmapped, h.total, List.length_filterMap_eq_countP,
    List.length_eq_countP_add_countP (·.line?.isSome)]
  congr 2
  funext i
  cases hunknown : i.position.isUnknown with
  | true => simp [ProfiledInstruction.line?_of_unknown hunknown]
  | false => simp [ProfiledInstruction.line?_of_known hunknown]

theorem sameEntries (h : p.Counts counted) (h' : q.Counts counted')
    (hperm : counted.Perm counted') : p.SameEntries q where
  opcodes := h.opcodes.perm h'.opcodes (hperm.map _)
  lines := h.lines.perm h'.lines (hperm.filterMap _)

end Counts

theorem counts_performAll (enabled : Bool) (uses : List ProfilerUse) :
    ((new enabled).performAll uses).Counts (ProfilerUse.countedBy enabled uses) := by
  simpa using (Counts.new enabled).performAll uses

/-- The tables of a profiler are maps, whatever it was used for. -/
theorem hasMaps_performAll (enabled : Bool) (uses : List ProfilerUse) :
    ((new enabled).performAll uses).HasMaps :=
  (counts_performAll enabled uses).hasMaps

/-! ### The order of the instructions -/

/-- Two profilers tell the same about what they have counted. -/
structure TellsAs (p q : Profiler) : Prop where
  total : p.total = q.total
  opcodes : ∀ op, p.opcodes.count op = q.opcodes.count op
  lines : ∀ l, p.lines.count l = q.lines.count l
  unmapped : p.unmapped = q.unmapped
  topOpcodes : ∀ n, p.topOpcodes n = q.topOpcodes n
  hotLines : ∀ n, p.hotLines n = q.hotLines n
  report : ∀ n, p.report n = q.report n

theorem Counts.tellsAs {p q : Profiler} {counted counted' : List ProfiledInstruction}
    (h : p.Counts counted) (h' : q.Counts counted') (hperm : counted.Perm counted')
    (henabled : p.enabled = q.enabled) : p.TellsAs q := by
  have hentries := h.sameEntries h' hperm
  have hrankings := h'.hasMaps.rankings_eq hentries
  have htotal : p.total = q.total := by rw [h.total, h'.total, hperm.length_eq]
  have hunmapped : p.unmapped = q.unmapped := by
    rw [h.unmapped, h'.unmapped, hperm.countP_eq]
  have hempty : p.opcodes.entries.isEmpty = q.opcodes.entries.isEmpty := hentries.opcodes.isEmpty_eq
  have hline : p.reportLine = q.reportLine := by
    funext name count
    rw [reportLine, reportLine, share, share, htotal]
  constructor
  case total => exact htotal
  case opcodes =>
    intro op
    rw [h.opcodes.count, h'.opcodes.count, (hperm.map _).count_eq]
  case lines =>
    intro l
    rw [h.lines.count, h'.lines.count, (hperm.filterMap _).count_eq]
  case unmapped => exact hunmapped
  case topOpcodes => exact fun n => (hrankings n).1
  case hotLines => exact fun n => (hrankings n).2
  case report =>
    intro n
    simp only [report, henabled, htotal, hempty, (hrankings n).1, (hrankings n).2, hline, hunmapped]

end Profiler

namespace ProfilerUse

/-- The same uses, with the instructions between two controls in another order. -/
inductive Reordered : List ProfilerUse → List ProfilerUse → Prop where
  | last {is is' : List ProfiledInstruction} (h : is.Perm is') :
      Reordered (is.map record) (is'.map record)
  | before {is is' : List ProfiledInstruction} {uses uses' : List ProfilerUse} (h : is.Perm is')
      (c : ProfilerControl) (rest : Reordered uses uses') :
      Reordered (is.map record ++ control c :: uses) (is'.map record ++ control c :: uses')

theorem countedBy_append (enabled : Bool) (is : List ProfiledInstruction)
    (uses : List ProfilerUse) :
    countedBy enabled (is.map record ++ uses) =
      (if enabled ∧ control .reset ∉ uses then is else []) ++ countedBy enabled uses := by
  have hreset (is : List ProfiledInstruction) :
      control .reset ∈ is.map record ++ uses ↔ control .reset ∈ uses := by
    simp
  induction is with
  | nil => simp
  | cons i is ih =>
    rw [List.map_cons, List.cons_append, countedBy]
    simp only [hreset, ih]
    by_cases hcounted : enabled ∧ control .reset ∉ uses
    · rw [if_pos hcounted, if_pos hcounted, if_pos hcounted, List.cons_append]
    · rw [if_neg hcounted, if_neg hcounted, if_neg hcounted]

namespace Reordered

variable {uses uses' : List ProfilerUse}

theorem mem_reset_iff (h : Reordered uses uses') :
    control .reset ∈ uses ↔ control .reset ∈ uses' := by
  induction h with
  | last _ => simp
  | before _ c _ ih => simp [ih]

theorem perm_ite {is is' : List ProfiledInstruction} (h : is.Perm is') (kept : Prop)
    [Decidable kept] : (if kept then is else []).Perm (if kept then is' else []) := by
  split
  · exact h
  · exact .nil

theorem countedBy_control_perm {c : ProfilerControl}
    (h : ∀ enabled, (countedBy enabled uses).Perm (countedBy enabled uses')) (enabled : Bool) :
    (countedBy enabled (control c :: uses)).Perm (countedBy enabled (control c :: uses')) := by
  cases c with
  | enable => exact h true
  | disable => exact h false
  | reset => exact h enabled

theorem countedBy_perm (h : Reordered uses uses') (enabled : Bool) :
    (countedBy enabled uses).Perm (countedBy enabled uses') := by
  induction h generalizing enabled with
  | @last is is' h =>
    have hlast := countedBy_append enabled is []
    have hlast' := countedBy_append enabled is' []
    rw [List.append_nil] at hlast hlast'
    rw [hlast, hlast']
    exact (perm_ite h _).append_right _
  | @before is is' uses uses' h c rest ih =>
    have hreset : control .reset ∈ control c :: uses ↔ control .reset ∈ control c :: uses' := by
      simp [rest.mem_reset_iff]
    rw [countedBy_append, countedBy_append]
    simp only [hreset]
    exact (perm_ite h _).append (countedBy_control_perm ih enabled)

end Reordered

end ProfilerUse

namespace Profiler

theorem enabled_performAll_records (p : Profiler) (is : List ProfiledInstruction) :
    (p.performAll (is.map .record)).enabled = p.enabled := by
  induction is generalizing p with
  | nil => rfl
  | cons i is ih =>
    rw [List.map_cons, performAll_cons, ih]
    exact enabled_record p i.op i.function i.position

theorem enabled_performAll_eq {uses uses' : List ProfilerUse} (h : ProfilerUse.Reordered uses uses')
    {p q : Profiler} (henabled : p.enabled = q.enabled) :
    (p.performAll uses).enabled = (q.performAll uses').enabled := by
  induction h generalizing p q with
  | last _ => rw [enabled_performAll_records, enabled_performAll_records, henabled]
  | before _ c _ ih =>
    rw [performAll_append, performAll_append, performAll_cons, performAll_cons]
    refine ih ?_
    cases c with
    | enable => rfl
    | disable => rfl
    | reset =>
      rw [perform, perform, enabled_reset, enabled_reset, enabled_performAll_records,
        enabled_performAll_records, henabled]

/-- **The counts of a profiler add up, and the order of the instructions does not matter.** After
any uses of a new profiler, its total is the sum of the counts of all operations, and the sum of the
counts of all lines together with the instructions without a position. Each count is the number of
those that belong there among the instructions that were recorded while the profiler was on and
after which it was not set back. If the instructions between two controls come in another order, the
profiler tells the same. -/
theorem accounts_add_up (enabled : Bool) (uses : List ProfilerUse) :
    let p := (new enabled).performAll uses
    p.Counts (ProfilerUse.countedBy enabled uses) ∧
    p.opcodes.total = p.total ∧ p.lines.total + p.unmapped = p.total ∧
    ∀ uses', ProfilerUse.Reordered uses uses' → ((new enabled).performAll uses').TellsAs p := by
  intro p
  have hcounts := counts_performAll enabled uses
  refine ⟨hcounts, hcounts.total_opcodes, hcounts.total_lines_add_unmapped, fun uses' h => ?_⟩
  have henabled : p.enabled = ((new enabled).performAll uses').enabled :=
    enabled_performAll_eq h rfl
  exact (counts_performAll enabled uses').tellsAs hcounts (h.countedBy_perm enabled).symm
    henabled.symm

end Profiler

end RegisterMachine
