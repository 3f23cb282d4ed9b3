/-!
# Parts of a text

A text is divided at each occurrence of a character. Joining the parts with that character gives
the text back.

Or a text is divided where a run of characters of some kind ends. This can be done in one way only
(`append_unique`).
-/

namespace RegisterMachine

/-- The parts of a text between the occurrences of `separator`; always at least one. -/
def partsBetween (separator : Char) : List Char → List (List Char)
  | [] => [[]]
  | c :: cs =>
    if c = separator then [] :: partsBetween separator cs
    else
      match partsBetween separator cs with
      | [] => [[c]]
      | part :: parts => (c :: part) :: parts

theorem partsBetween_ne_nil (separator : Char) (cs : List Char) :
    partsBetween separator cs ≠ [] := by
  cases cs with
  | nil => simp [partsBetween]
  | cons c cs =>
    rw [partsBetween]
    split
    · simp
    · split <;> simp

theorem separator_not_mem_of_mem (separator : Char) (cs : List Char) :
    ∀ part ∈ partsBetween separator cs, separator ∉ part := by
  induction cs with
  | nil => simp [partsBetween]
  | cons c cs ih =>
    rw [partsBetween]
    split
    · simpa using ih
    · next hc =>
      split
      · simpa using Ne.symm hc
      · next part parts h =>
        rw [h] at ih
        intro p hp
        rcases List.mem_cons.1 hp with rfl | hp
        · simpa [Ne.symm hc] using ih part (by simp)
        · exact ih p (by simp [hp])

theorem intercalate_partsBetween (separator : Char) (cs : List Char) :
    [separator].intercalate (partsBetween separator cs) = cs := by
  induction cs with
  | nil => simp [partsBetween]
  | cons c cs ih =>
    rw [partsBetween]
    cases h : partsBetween separator cs with
    | nil => exact absurd h (partsBetween_ne_nil separator cs)
    | cons part parts =>
      rw [h] at ih
      split
      · next hc => simp [hc, ih]
      · cases parts with
        | nil => simpa using ih
        | cons p ps => simpa using ih

/-- Parts that do not hold the separator are found again when they have been joined. -/
theorem partsBetween_intercalate {separator : Char} {parts : List (List Char)} (hne : parts ≠ [])
    (h : ∀ part ∈ parts, separator ∉ part) :
    partsBetween separator ([separator].intercalate parts) = parts := by
  -- the first part is taken off character by character
  have hfirst (part rest : List Char) (hpart : separator ∉ part) (p : List Char)
      (ps : List (List Char)) (hrest : partsBetween separator rest = p :: ps) :
      partsBetween separator (part ++ rest) = (part ++ p) :: ps := by
    induction part with
    | nil => exact hrest
    | cons c part ih =>
      rw [List.mem_cons, not_or] at hpart
      rw [List.cons_append, partsBetween, if_neg (Ne.symm hpart.1), ih hpart.2]
      rfl
  induction parts with
  | nil => exact absurd rfl hne
  | cons part parts ih =>
    obtain ⟨hpart, hparts⟩ := List.forall_mem_cons.1 h
    cases parts with
    | nil =>
      rw [List.intercalate_singleton]
      have hlast := hfirst part [] hpart [] [] rfl
      rwa [List.append_nil] at hlast
    | cons next parts =>
      rw [List.intercalate_cons_cons, List.append_assoc]
      have hnext := ih (List.cons_ne_nil _ _) hparts
      have hcut : partsBetween separator ([separator] ++ [separator].intercalate (next :: parts)) =
          [] :: next :: parts := by
        rw [List.singleton_append, partsBetween, if_pos rfl, hnext]
      rw [hfirst part _ hpart _ _ hcut, List.append_nil]

def EndsRun (p : Char → Bool) (rest : List Char) : Prop := ∀ c ∈ rest.head?, p c = false

section

variable {p : Char → Bool} {run run' rest rest' : List Char}

theorem takeWhile_run (hrun : ∀ c ∈ run, p c = true) (hrest : EndsRun p rest) :
    (run ++ rest).takeWhile p = run ∧ (run ++ rest).dropWhile p = rest := by
  rw [List.takeWhile_append_of_pos hrun, List.dropWhile_append_of_pos hrun]
  cases rest with
  | nil => exact ⟨List.append_nil run, rfl⟩
  | cons c rest =>
    have hc : ¬ p c = true := Bool.eq_false_iff.1 (hrest c rfl)
    rw [List.takeWhile_cons_of_neg hc, List.dropWhile_cons_of_neg hc, List.append_nil]
    exact ⟨rfl, rfl⟩

theorem append_unique (hrun : ∀ c ∈ run, p c = true) (hrun' : ∀ c ∈ run', p c = true)
    (hrest : EndsRun p rest) (hrest' : EndsRun p rest') (h : run ++ rest = run' ++ rest') :
    run = run' ∧ rest = rest' := by
  obtain ⟨htake, hdrop⟩ := takeWhile_run hrun hrest
  obtain ⟨htake', hdrop'⟩ := takeWhile_run hrun' hrest'
  rw [h] at htake hdrop
  exact ⟨htake.symm.trans htake', hdrop.symm.trans hdrop'⟩

end

end RegisterMachine
