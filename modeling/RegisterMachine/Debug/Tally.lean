/-!
# Tallies

Counts of things, one entry for each thing that has been counted. A ranking lists the entries by
falling count; an order on the things decides between equal counts. If that order separates all
things, the ranking is the same for any two tallies with the same entries in whatever order.
-/

namespace RegisterMachine

structure Tally (κ : Type) where
  entries : List (κ × Nat)
  deriving Inhabited

namespace Tally

variable {κ : Type}

def empty : Tally κ := ⟨[]⟩

/-- Counts `thing` once more in a list of entries. -/
def bump [DecidableEq κ] (thing : κ) : List (κ × Nat) → List (κ × Nat)
  | [] => [(thing, 1)]
  | (key, count) :: rest =>
    if key = thing then (key, count + 1) :: rest else (key, count) :: bump thing rest

def countIn [DecidableEq κ] (thing : κ) : List (κ × Nat) → Nat
  | [] => 0
  | (key, count) :: rest => if key = thing then count else countIn thing rest

def increment [DecidableEq κ] (t : Tally κ) (thing : κ) : Tally κ := ⟨bump thing t.entries⟩

def count [DecidableEq κ] (t : Tally κ) (thing : κ) : Nat := countIn thing t.entries

def total (t : Tally κ) : Nat := t.entries.foldr (fun e sum => e.2 + sum) 0

/-- An entry stands before another in a ranking, or the two have one place. -/
def ranksBefore (atMost : κ → κ → Bool) (e e' : κ × Nat) : Bool :=
  e'.2 < e.2 || (e.2 == e'.2 && atMost e.1 e'.1)

def top (t : Tally κ) (atMost : κ → κ → Bool) (n : Nat) : List (κ × Nat) :=
  (t.entries.mergeSort (ranksBefore atMost)).take n

theorem countIn_bump [DecidableEq κ] (thing other : κ) (entries : List (κ × Nat)) :
    countIn other (bump thing entries) =
      countIn other entries + if thing = other then 1 else 0 := by
  induction entries with
  | nil => by_cases h : thing = other <;> simp [bump, countIn, h]
  | cons e rest ih =>
    obtain ⟨key, count⟩ := e
    by_cases hk : key = thing
    · subst hk
      by_cases ho : key = other <;> simp [bump, countIn, ho]
    · by_cases ho : key = other
      · subst ho
        simp [bump, countIn, hk, Ne.symm hk]
      · simp [bump, countIn, hk, ho, ih]

theorem count_increment [DecidableEq κ] (t : Tally κ) (thing other : κ) :
    (t.increment thing).count other = t.count other + if thing = other then 1 else 0 :=
  countIn_bump thing other t.entries

theorem total_increment [DecidableEq κ] (t : Tally κ) (thing : κ) :
    (t.increment thing).total = t.total + 1 := by
  obtain ⟨entries⟩ := t
  simp only [total, increment]
  induction entries with
  | nil => rfl
  | cons e rest ih =>
    obtain ⟨key, count⟩ := e
    by_cases hk : key = thing
    · simp [bump, hk]
      omega
    · simp [bump, hk, ih]
      omega

end Tally

end RegisterMachine
