import RegisterMachine.Debug.Profiler
import RegisterMachine.Proofs.ByteOrder

/-!
# Rankings

A ranking sorts the entries of a tally and keeps the first ones. The comparison that it sorts by is
the decision of a strict order in which any two entries have their places (`Decides`): a higher
count stands before a lower one, and between equal counts stands the thing that comes first. This
order needs no more than an order of the things with the same property (`Decides.above`). For
operations that is the order of their numbers, and for lines the one of their functions' names by
bytes and then of their numbers.

So sorting leaves no choice: the sorted list is strictly descending, and it is the same for entries
in any order. What a ranking of a given length lists, and what it leaves out, follows from where
the sorted list is cut (`Tally.isTop_top`).
-/

namespace RegisterMachine

/-! ### Sorting by a strict order -/

/-- A comparison says which of two things comes first, in an order in which no two different things
have one place. -/
structure Decides {α : Type} (atMost : α → α → Bool) (before : α → α → Prop) : Prop where
  iff : ∀ a b, atMost a b = true ↔ before a b ∨ a = b
  irrefl : ∀ a, ¬ before a a
  trans : ∀ {a b c}, before a b → before b c → before a c
  total : ∀ a b, before a b ∨ a = b ∨ before b a

namespace Decides

variable {α : Type} {atMost : α → α → Bool} {before : α → α → Prop}

theorem atMost_trans (h : Decides atMost before) (a b c : α) (hab : atMost a b = true)
    (hbc : atMost b c = true) : atMost a c = true := by
  rw [h.iff] at hab hbc ⊢
  rcases hab with hab | rfl
  · rcases hbc with hbc | rfl
    · exact .inl (h.trans hab hbc)
    · exact .inl hab
  · exact hbc

theorem atMost_total (h : Decides atMost before) (a b : α) : (atMost a b || atMost b a) = true := by
  rw [Bool.or_eq_true, h.iff, h.iff]
  rcases h.total a b with hab | rfl | hba
  · exact .inl (.inl hab)
  · exact .inl (.inr rfl)
  · exact .inr (.inl hba)

theorem pairwise_mergeSort (h : Decides atMost before) {l : List α} (hl : l.Nodup) :
    (l.mergeSort atMost).Pairwise before := by
  have hsorted := List.pairwise_mergeSort h.atMost_trans h.atMost_total l
  have hnodup : (l.mergeSort atMost).Nodup := (List.mergeSort_perm l atMost).nodup_iff.2 hl
  refine hsorted.imp₂ (fun a b hab hne => ?_) hnodup
  exact ((h.iff a b).1 hab).resolve_right hne

theorem mergeSort_eq_of_perm (h : Decides atMost before) {l l' : List α} (hl : l.Nodup)
    (hperm : l.Perm l') : l.mergeSort atMost = l'.mergeSort atMost := by
  have hsorted : (l.mergeSort atMost).Perm (l'.mergeSort atMost) :=
    (List.mergeSort_perm l atMost).trans (hperm.trans (List.mergeSort_perm l' atMost).symm)
  have hl' : l'.Nodup := hperm.nodup_iff.1 hl
  refine List.Perm.eq_of_pairwise (fun a b _ _ hab hba => ?_) (h.pairwise_mergeSort hl)
    (h.pairwise_mergeSort hl') hsorted
  exact absurd (h.trans hab hba) (h.irrefl a)

end Decides

/-! ### Tallies as maps -/

namespace Tally

variable {κ : Type}

def keys (t : Tally κ) : List κ := t.entries.map Prod.fst

/-- There is one entry for each thing that has been counted. -/
def IsMap (t : Tally κ) : Prop := t.keys.Nodup

instance [DecidableEq κ] (t : Tally κ) : Decidable t.IsMap :=
  inferInstanceAs (Decidable (List.Nodup _))

theorem isMap_empty : (empty : Tally κ).IsMap := List.nodup_nil

theorem IsMap.nodup_entries {t : Tally κ} (h : t.IsMap) : t.entries.Nodup :=
  List.Pairwise.of_map Prod.fst (fun _ _ hne he => hne (congrArg Prod.fst he)) h

section

variable [DecidableEq κ]

theorem mem_keys_bump (thing other : κ) (entries : List (κ × Nat)) :
    other ∈ (bump thing entries).map Prod.fst ↔ other = thing ∨ other ∈ entries.map Prod.fst := by
  induction entries with
  | nil => simp [bump]
  | cons e rest ih =>
    obtain ⟨key, count⟩ := e
    by_cases hk : key = thing
    · simp [bump, hk]
    · simp only [bump, hk, if_false, List.map_cons, List.mem_cons, ih]
      exact or_left_comm

theorem mem_keys_increment (t : Tally κ) (thing other : κ) :
    other ∈ (t.increment thing).keys ↔ other = thing ∨ other ∈ t.keys :=
  mem_keys_bump thing other t.entries

theorem nodup_keys_bump (thing : κ) {entries : List (κ × Nat)}
    (h : (entries.map Prod.fst).Nodup) : ((bump thing entries).map Prod.fst).Nodup := by
  induction entries with
  | nil => simp [bump]
  | cons e rest ih =>
    obtain ⟨key, count⟩ := e
    obtain ⟨hkey, hrest⟩ := List.nodup_cons.1 h
    by_cases hk : key = thing
    · simpa [bump, hk] using h
    · simp only [bump, hk, if_false, List.map_cons]
      refine List.nodup_cons.2 ⟨fun hmem => ?_, ih hrest⟩
      exact ((mem_keys_bump thing key rest).1 hmem).elim hk hkey

theorem IsMap.increment {t : Tally κ} (h : t.IsMap) (thing : κ) : (t.increment thing).IsMap :=
  nodup_keys_bump thing h

theorem mem_iff_countIn {entries : List (κ × Nat)} (h : (entries.map Prod.fst).Nodup) (key : κ)
    (count : Nat) :
    (key, count) ∈ entries ↔ key ∈ entries.map Prod.fst ∧ countIn key entries = count := by
  induction entries with
  | nil => simp
  | cons e rest ih =>
    obtain ⟨other, number⟩ := e
    obtain ⟨hother, hrest⟩ := List.nodup_cons.1 h
    by_cases hk : other = key
    · subst hk
      have habsent : (other, count) ∉ rest := fun hmem =>
        hother (List.mem_map.2 ⟨_, hmem, rfl⟩)
      simp [countIn, habsent, eq_comm]
    · simp [countIn, hk, Ne.symm hk, ih hrest]

theorem IsMap.mem_entries_iff {t : Tally κ} (h : t.IsMap) (key : κ) (count : Nat) :
    (key, count) ∈ t.entries ↔ key ∈ t.keys ∧ t.count key = count :=
  mem_iff_countIn h key count

end

/-! ### The first entries -/

/-- An entry stands above another if its count is higher, or if it is the same and its thing comes
before the other one. -/
def Above (before : κ → κ → Prop) (e e' : κ × Nat) : Prop :=
  e'.2 < e.2 ∨ e.2 = e'.2 ∧ before e.1 e'.1

end Tally

theorem Decides.above {κ : Type} {atMost : κ → κ → Bool} {before : κ → κ → Prop}
    (h : Decides atMost before) : Decides (Tally.ranksBefore atMost) (Tally.Above before) where
  iff e e' := by
    obtain ⟨key, count⟩ := e
    obtain ⟨key', count'⟩ := e'
    simp only [Tally.ranksBefore, Tally.Above, Bool.or_eq_true, Bool.and_eq_true, decide_eq_true_eq,
      beq_iff_eq, h.iff, Prod.mk.injEq]
    grind
  irrefl e := by
    rintro (hlt | ⟨-, hbefore⟩)
    · exact Nat.lt_irrefl _ hlt
    · exact h.irrefl _ hbefore
  trans := by
    rintro e e' e'' (hlt | ⟨heq, hbefore⟩) (hlt' | ⟨heq', hbefore'⟩)
    · exact .inl (Nat.lt_trans hlt' hlt)
    · exact .inl (heq' ▸ hlt)
    · exact .inl (heq ▸ hlt')
    · exact .inr ⟨heq.trans heq', h.trans hbefore hbefore'⟩
  total e e' := by
    obtain ⟨key, count⟩ := e
    obtain ⟨key', count'⟩ := e'
    simp only [Tally.Above, Prod.mk.injEq]
    have hcount := Nat.lt_trichotomy count count'
    have hkey := h.total key key'
    grind

namespace Tally

section

variable {κ : Type} {atMost : κ → κ → Bool} {before : κ → κ → Prop}

theorem top_isPrefix (t : Tally κ) (atMost : κ → κ → Bool) {m n : Nat} (hmn : m ≤ n) :
    t.top atMost m <+: t.top atMost n :=
  List.take_prefix_take_left hmn

theorem top_eq_of_perm (h : Decides atMost before) {t t' : Tally κ} (ht : t.IsMap)
    (hperm : t'.entries.Perm t.entries) (n : Nat) : t'.top atMost n = t.top atMost n :=
  congrArg (List.take n) (h.above.mergeSort_eq_of_perm ht.nodup_entries hperm.symm).symm

variable [DecidableEq κ]

/-- A list is what a tally holds in its first `n` places. -/
structure IsTop (before : κ → κ → Prop) (t : Tally κ) (n : Nat) (ranking : List (κ × Nat)) :
    Prop where
  distinct : (ranking.map Prod.fst).Nodup
  exact : ∀ key count, (key, count) ∈ ranking → key ∈ t.keys ∧ count = t.count key
  length : ranking.length = min n t.keys.length
  descending : ranking.Pairwise (Above before)
  /-- every thing that is left out stands below all that are listed -/
  others : ∀ key ∈ t.keys, key ∉ ranking.map Prod.fst →
    ∀ e ∈ ranking, Above before e (key, t.count key)

theorem isTop_top (h : Decides atMost before) {t : Tally κ} (ht : t.IsMap) (n : Nat) :
    t.IsTop before n (t.top atMost n) := by
  have hperm : (t.entries.mergeSort (ranksBefore atMost)).Perm t.entries :=
    List.mergeSort_perm t.entries (ranksBefore atMost)
  have hdescending := h.above.pairwise_mergeSort ht.nodup_entries
  constructor
  case distinct =>
    have hsub : (t.top atMost n).Sublist (t.entries.mergeSort (ranksBefore atMost)) :=
      List.take_sublist n _
    exact (hsub.map Prod.fst).nodup ((hperm.map Prod.fst).nodup_iff.2 ht)
  case exact =>
    intro key count hmem
    have hentry : (key, count) ∈ t.entries := hperm.mem_iff.1 (List.mem_of_mem_take hmem)
    obtain ⟨hkey, hcount⟩ := (ht.mem_entries_iff key count).1 hentry
    exact ⟨hkey, hcount.symm⟩
  case length => rw [top, List.length_take, hperm.length_eq, keys, List.length_map]
  case descending => exact hdescending.sublist (List.take_sublist n _)
  case others =>
    intro key hkey hout e he
    have hentry : (key, t.count key) ∈ t.entries := (ht.mem_entries_iff key _).2 ⟨hkey, rfl⟩
    have hsorted := hperm.mem_iff.2 hentry
    -- what is not in front of the cut is behind it
    rw [← List.take_append_drop n (t.entries.mergeSort (ranksBefore atMost))] at hdescending hsorted
    have hbehind := (List.mem_append.1 hsorted).resolve_left fun hmem =>
      hout (List.mem_map_of_mem hmem)
    exact (List.pairwise_append.1 hdescending).2.2 e he _ hbehind

end

end Tally

/-! ### The rankings of a profiler -/

def Opcode.IsBefore (op op' : Opcode) : Prop := op.number < op'.number

/-- Lines come in the order of the bytes of their functions' names, and then of their numbers. -/
def ProfiledLine.IsBefore (l l' : ProfiledLine) : Prop :=
  utf8Bytes l.function < utf8Bytes l'.function ∨ l.function = l'.function ∧ l.line < l'.line

theorem Opcode.decides_isBefore :
    Decides (fun op op' : Opcode => op.number ≤ op'.number) Opcode.IsBefore where
  iff op op' := by
    rw [decide_eq_true_eq, Opcode.IsBefore, Nat.le_iff_lt_or_eq]
    exact or_congr_right ⟨Opcode.number_injective, congrArg Opcode.number⟩
  irrefl op := Nat.lt_irrefl _
  trans := Nat.lt_trans
  total op op' :=
    (Nat.lt_trichotomy op.number op'.number).imp_right (Or.imp_left Opcode.number_injective)

theorem ProfiledLine.decides_isBefore :
    Decides ProfiledLine.atMost ProfiledLine.IsBefore where
  iff l l' := by
    obtain ⟨function, line⟩ := l
    obtain ⟨function', line'⟩ := l'
    simp only [atMost, IsBefore, utf8Bytes_lt_iff, Bool.or_eq_true, Bool.and_eq_true,
      decide_eq_true_eq, beq_iff_eq, UInt32.le_iff_lt_or_eq, ProfiledLine.mk.injEq]
    grind
  irrefl l := by
    rintro (hlt | ⟨-, hlt⟩)
    · exact List.lt_irrefl _ hlt
    · exact UInt32.lt_irrefl _ hlt
  trans := by
    rintro l l' l'' (hlt | ⟨heq, hlt⟩) (hlt' | ⟨heq', hlt'⟩)
    · exact .inl (List.lt_trans hlt hlt')
    · exact .inl (heq' ▸ hlt)
    · exact .inl (heq ▸ hlt')
    · exact .inr ⟨heq.trans heq', UInt32.lt_trans hlt hlt'⟩
  total l l' := by
    obtain ⟨function, line⟩ := l
    obtain ⟨function', line'⟩ := l'
    simp only [IsBefore, utf8Bytes_lt_iff, ProfiledLine.mk.injEq]
    have hfunction := Std.lt_trichotomy function function'
    have hline := Std.lt_trichotomy line line'
    grind

namespace Profiler

/-- The tables of a profiler have one entry for each operation and for each line. -/
structure HasMaps (p : Profiler) : Prop where
  opcodes : p.opcodes.IsMap
  lines : p.lines.IsMap

/-- Two profilers have the same entries, in whatever order. -/
structure SameEntries (p q : Profiler) : Prop where
  opcodes : p.opcodes.entries.Perm q.opcodes.entries
  lines : p.lines.entries.Perm q.lines.entries

/-- The rankings of a profiler are what its tables hold in their first places. -/
structure RanksTruly (p : Profiler) : Prop where
  topOpcodes : ∀ n, p.opcodes.IsTop Opcode.IsBefore n (p.topOpcodes n)
  hotLines : ∀ n, p.lines.IsTop ProfiledLine.IsBefore n (p.hotLines n)
  /-- a longer ranking goes on where a shorter one ends -/
  longer : ∀ m n, m ≤ n → p.topOpcodes m <+: p.topOpcodes n ∧ p.hotLines m <+: p.hotLines n
  /-- the order of the entries does not matter -/
  anyOrder : ∀ q : Profiler, q.SameEntries p →
    ∀ n, q.topOpcodes n = p.topOpcodes n ∧ q.hotLines n = p.hotLines n

theorem HasMaps.rankings_eq {p q : Profiler} (hp : p.HasMaps) (h : q.SameEntries p) (n : Nat) :
    q.topOpcodes n = p.topOpcodes n ∧ q.hotLines n = p.hotLines n :=
  ⟨Tally.top_eq_of_perm Opcode.decides_isBefore hp.opcodes h.opcodes n,
    Tally.top_eq_of_perm ProfiledLine.decides_isBefore hp.lines h.lines n⟩

/-- **The rankings of a profiler are true.** They list the operations and the lines with the highest
counts, each once and with its count, from the top down; where counts are equal, the number of the
operation decides, or the bytes of the function's name and then the number of the line. -/
theorem rankings_are_true (p : Profiler) (h : p.HasMaps) : p.RanksTruly where
  topOpcodes := Tally.isTop_top Opcode.decides_isBefore h.opcodes
  hotLines := Tally.isTop_top ProfiledLine.decides_isBefore h.lines
  longer _ _ hmn := ⟨Tally.top_isPrefix _ _ hmn, Tally.top_isPrefix _ _ hmn⟩
  anyOrder _ hq n := h.rankings_eq hq n

/-- Two operations and two lines of one function, with equal counts. -/
theorem rankings_are_true_for_equal_counts :
    let p : Profiler :=
      { enabled := true
        total := 5
        opcodes := ⟨[(.add, 2), (.call, 1), (.move, 2)]⟩
        lines := ⟨[(⟨"main", 12⟩, 2), (⟨"main", 7⟩, 2)]⟩
        unmapped := 1 }
    p.HasMaps ∧ p.RanksTruly := by
  intro p
  have h : p.HasMaps := ⟨by decide, by decide⟩
  exact ⟨h, rankings_are_true p h⟩

example : (Profiler.mk true 5 ⟨[(.add, 2), (.call, 1), (.move, 2)]⟩ .empty 5).topOpcodes 2 =
    [(.move, 2), (.add, 2)] := by
  cbv

end Profiler

end RegisterMachine
