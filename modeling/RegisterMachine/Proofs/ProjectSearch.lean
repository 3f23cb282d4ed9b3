import RegisterMachine.Proofs.Layers

/-!
# The search for a project

The file of a project is looked for in a directory, in the one above it, and so on. `Path.up?` goes
up step by step; `Path.ancestors`, which the search goes through, lists just these steps
(`Path.getElem?_ancestors`). That takes an argument, because a path is a text: what is left when a
segment has been taken off is written down, and has to be taken apart again as it was put together.
Every step makes the path shorter, also at the end, where a relative path comes to the empty one.

Main statement: the first directory on the way that has a file for its project is the project, and
its file decides, whether it is good or not (`Configuration.nearest_project_wins`).
-/

namespace RegisterMachine

namespace Path

/-- The path that is reached by going up `n` times, if one can. -/
def up? : Nat → String → Option String
  | 0, path => some path
  | n + 1, path => (parent? path).bind (up? n)

/-! ### Taking paths apart -/

/-- The segments of a path, given from the last to the first, with the start of the path. The start
says how the first segment begins. -/
structure AreSegments (s : Start) (segments : List (List Char)) : Prop where
  whole : ∀ g ∈ segments, '/' ∉ g
  /-- behind the point that stands for the current directory there is a slash -/
  current : s = .current → ∀ g ∈ segments.getLast?, g = []
  nowhere : s = .nowhere → segments = [[]] ∨ ∀ g ∈ segments.getLast?, isVoid g = false

theorem start_eq {cs rest : List Char} {s : Start} (h : start cs = (s, rest)) :
    cs = s.text ++ rest := by
  unfold start at h
  split at h <;> cases h <;> rfl

theorem getLast?_reverse_partsBetween (c : Char) (cs : List Char) (hc : c ≠ '/') :
    ∀ g ∈ (partsBetween '/' (c :: cs)).reverse.getLast?, ∃ g', g = c :: g' ∧
      (g' = [] → cs = [] ∨ ∃ cs', cs = '/' :: cs') := by
  intro g hg
  rw [List.getLast?_reverse, partsBetween, if_neg hc] at hg
  cases hparts : partsBetween '/' cs with
  | nil => exact absurd hparts (partsBetween_ne_nil '/' cs)
  | cons part parts =>
    rw [hparts] at hg
    obtain rfl := Option.some.inj hg
    refine ⟨part, rfl, ?_⟩
    rintro rfl
    cases cs with
    | nil => exact Or.inl rfl
    | cons d ds =>
      refine Or.inr ?_
      by_cases hd : d = '/'
      · exact ⟨ds, by rw [hd]⟩
      · rw [partsBetween, if_neg hd] at hparts
        split at hparts <;> cases hparts

/-- The segments of a path are found by dividing what is behind its start. -/
theorem areSegments_partsBetween {cs rest : List Char} {s : Start} (h : start cs = (s, rest)) :
    AreSegments s (partsBetween '/' rest).reverse where
  whole g hg := separator_not_mem_of_mem '/' rest g (List.mem_reverse.1 hg)
  current := by
    rintro rfl
    unfold start at h
    split at h <;> cases h
    · simp [partsBetween]
    · simp [partsBetween]
  nowhere := by
    rintro rfl
    unfold start at h
    split at h <;> cases h
    rename_i hroot hpoint hcurrent
    cases cs with
    | nil => exact Or.inl rfl
    | cons c cs =>
      refine Or.inr fun g hg => ?_
      have hc : c ≠ '/' := fun hc => hroot cs (by rw [hc])
      obtain ⟨g', rfl, hg'⟩ := getLast?_reverse_partsBetween c cs hc g hg
      -- a first segment that is a point would be the start of the path
      rw [isVoid, Bool.or_eq_false_iff]
      refine ⟨rfl, beq_eq_false_iff_ne.2 fun hpart => ?_⟩
      obtain ⟨rfl, rfl⟩ := List.cons.inj hpart
      rcases hg' rfl with rfl | ⟨cs', rfl⟩
      · exact hpoint rfl
      · exact hcurrent cs' rfl

theorem AreSegments.tail {s : Start} {g : List Char} {segments : List (List Char)}
    (h : AreSegments s (g :: segments)) : AreSegments s segments where
  whole g' hg' := h.whole g' (List.mem_cons_of_mem g hg')
  current hs g' hg' := by
    cases segments with
    | nil => cases hg'
    | cons next segments => exact h.current hs g' (by rwa [List.getLast?_cons_cons])
  nowhere hs := by
    cases segments with
    | nil => exact Or.inr nofun
    | cons next segments =>
      refine Or.inr fun g' hg' => ?_
      rcases h.nowhere hs with hone | hlast
      · cases hone
      · exact hlast g' (by rwa [List.getLast?_cons_cons])

theorem AreSegments.dropWhile {s : Start} {segments : List (List Char)}
    (h : AreSegments s segments) (p : List Char → Bool) :
    AreSegments s (segments.dropWhile p) := by
  induction segments with
  | nil => exact h
  | cons g segments ih =>
    rw [List.dropWhile_cons]
    split
    · exact ih h.tail
    · exact h

theorem parents_dropWhile (s : Start) (segments : List (List Char)) :
    parents s (segments.dropWhile isVoid) = parents s segments := by
  induction segments with
  | nil => rfl
  | cons g segments ih =>
    rw [List.dropWhile_cons]
    cases hg : isVoid g with
    | true => simpa [parents, hg] using ih
    | false => rfl

theorem start_intercalate {s : Start} {segments : List (List Char)} (h : AreSegments s segments)
    (hhead : ∀ g ∈ segments.head?, isVoid g = false) :
    start (s.text ++ ['/'].intercalate segments.reverse) =
      (s, ['/'].intercalate segments.reverse) := by
  rcases List.eq_nil_or_concat segments with rfl | ⟨front, g, rfl⟩
  · cases s <;> rfl
  · have hlast : g ∈ (front.concat g).getLast? := by simp
    rw [List.concat_eq_append, List.reverse_append, List.reverse_singleton, List.singleton_append]
    cases s with
    | root => rfl
    | current =>
      obtain rfl := h.current rfl g hlast
      -- the last segment has a name, so it is not this one
      cases hfront : front.reverse with
      | nil =>
        rw [List.reverse_eq_nil_iff] at hfront
        subst hfront
        cases hhead [] rfl
      | cons next rest => rfl
    | nowhere =>
      have hg : isVoid g = false := by
        rcases h.nowhere rfl with hone | hlast'
        · cases front with
          | nil => exact hhead g rfl
          | cons next rest => simp at hone
        · exact hlast' g hlast
      have hslash : '/' ∉ g := h.whole g (by simp)
      match g, hg, hslash with
      | c :: g, hg, hslash =>
        rw [Start.text, List.nil_append]
        have hc : c ≠ '/' := fun hc => hslash (by simp [hc])
        -- a point at the start would be a segment of its own
        have hpoint : c = '.' → ∃ d ds, g = d :: ds ∧ d ≠ '/' := by
          rintro rfl
          cases g with
          | nil => cases hg
          | cons d ds => exact ⟨d, ds, rfl, fun hd => hslash (by simp [hd])⟩
        have htext : ∃ rest, ['/'].intercalate ((c :: g) :: front.reverse) = c :: (g ++ rest) := by
          cases front.reverse with
          | nil => exact ⟨[], by simp⟩
          | cons next rest =>
            exact ⟨['/'] ++ ['/'].intercalate (next :: rest), by
              rw [List.intercalate_cons_cons]
              simp⟩
        obtain ⟨rest, hrest⟩ := htext
        rw [hrest]
        unfold start
        split
        · rename_i heq
          exact absurd (List.cons.inj heq).1 hc
        · rename_i heq
          obtain ⟨hdot, htail⟩ := List.cons.inj heq
          obtain ⟨d, ds, rfl, -⟩ := hpoint hdot
          cases htail
        · rename_i heq
          obtain ⟨hdot, htail⟩ := List.cons.inj heq
          obtain ⟨d, ds, rfl, hd⟩ := hpoint hdot
          exact absurd (List.cons.inj htail).1 hd
        · rfl

/-- What is written down of some segments is taken apart again into them. -/
theorem ancestors_ofSegments {s : Start} {segments : List (List Char)} (h : AreSegments s segments)
    (hhead : ∀ g ∈ segments.head?, isVoid g = false) :
    ancestors (ofSegments s segments) = ofSegments s segments :: parents s segments := by
  rw [ancestors, ofSegments, String.toList_ofList, start_intercalate h hhead]
  dsimp only
  refine congrArg (_ :: ·) ?_
  cases segments with
  | nil => rfl
  | cons g segments =>
    rw [partsBetween_intercalate (by simp) fun part hpart => h.whole part (List.mem_reverse.1 hpart),
      List.reverse_reverse]

theorem ancestors_of_parents {s : Start} {segments : List (List Char)} {up : String}
    {further : List String} (h : AreSegments s segments)
    (hparents : parents s segments = up :: further) : ancestors up = up :: further := by
  induction segments with
  | nil =>
    rw [parents] at hparents
    split at hparents
    · cases hparents
      rfl
    · cases hparents
  | cons g segments ih =>
    rw [parents] at hparents
    split at hparents
    · exact ih h.tail hparents
    · obtain ⟨rfl, rfl⟩ := List.cons.inj hparents
      rw [← parents_dropWhile s segments]
      refine ancestors_ofSegments (h.tail.dropWhile isVoid) fun g' hg' => ?_
      have hfirst := List.head?_dropWhile_not isVoid segments
      rw [Option.mem_def.1 hg'] at hfirst
      exact hfirst

/-! ### Going up -/

/-- The list of the paths above a path goes up step by step. -/
theorem ancestors_eq (path : String) :
    ancestors path = path :: ((parent? path).map ancestors).getD [] := by
  have hsegments : AreSegments (start path.toList).1
      (partsBetween '/' (start path.toList).2).reverse := areSegments_partsBetween rfl
  have hlist : ancestors path = path ::
      parents (start path.toList).1 (partsBetween '/' (start path.toList).2).reverse := rfl
  rw [parent?, hlist]
  cases hparents : parents (start path.toList).1
      (partsBetween '/' (start path.toList).2).reverse with
  | nil => rfl
  | cons up further => exact congrArg _ (ancestors_of_parents hsegments hparents).symm

theorem getElem?_ancestors (n : Nat) (path : String) : (ancestors path)[n]? = up? n path := by
  induction n generalizing path with
  | zero => rfl
  | succ n ih =>
    rw [ancestors_eq, List.getElem?_cons_succ, up?]
    cases parent? path with
    | none => rfl
    | some up => exact ih up

theorem length_intercalate_cons (g : List Char) (gs : List (List Char)) :
    (['/'].intercalate gs.reverse).length + g.length ≤
      (['/'].intercalate (g :: gs).reverse).length := by
  rw [List.reverse_cons]
  generalize gs.reverse = parts
  induction parts with
  | nil => simp
  | cons part parts ih =>
    cases parts with
    | nil =>
      simp
    | cons next parts =>
      rw [List.cons_append, List.cons_append, List.intercalate_cons_cons,
        List.intercalate_cons_cons, ← List.cons_append]
      simp only [List.length_append]
      omega

theorem length_parents_lt {s : Start} {segments : List (List Char)} {up : String}
    {further : List String} (h : parents s segments = up :: further) :
    up.length < (s.text ++ ['/'].intercalate segments.reverse).length := by
  induction segments with
  | nil =>
    rw [parents] at h
    split at h
    · cases h
      subst s
      decide
    · cases h
  | cons g segments ih =>
    have hlength := length_intercalate_cons g segments
    rw [parents] at h
    rw [List.length_append]
    split at h
    · have hrest := ih h
      rw [List.length_append] at hrest
      omega
    · rename_i hg
      obtain ⟨rfl, rfl⟩ := List.cons.inj h
      have hpos : 0 < g.length := by
        cases g with
        | nil => exact absurd rfl hg
        | cons c g => exact Nat.succ_pos _
      have hdrop : (['/'].intercalate (segments.dropWhile isVoid).reverse).length ≤
          (['/'].intercalate segments.reverse).length := by
        clear h ih hlength
        induction segments with
        | nil => exact Nat.le_refl _
        | cons g' segments ih =>
          have hlength := length_intercalate_cons g' segments
          rw [List.dropWhile_cons]
          split
          · omega
          · exact Nat.le_refl _
      rw [ofSegments, String.length_ofList, List.length_append]
      omega

theorem length_parent?_lt {path up : String} (h : parent? path = some up) :
    up.length < path.length := by
  have hlist : ancestors path = path ::
      parents (start path.toList).1 (partsBetween '/' (start path.toList).2).reverse := rfl
  rw [parent?, hlist, List.getElem?_cons_succ] at h
  cases hparents : parents (start path.toList).1
      (partsBetween '/' (start path.toList).2).reverse with
  | nil =>
    rw [hparents] at h
    cases h
  | cons first further =>
    rw [hparents] at h
    obtain rfl := Option.some.inj h
    have hlength := length_parents_lt hparents
    have hpath : path.toList = (start path.toList).1.text ++ (start path.toList).2 := start_eq rfl
    rwa [List.reverse_reverse, intercalate_partsBetween, ← hpath, String.length_toList] at hlength

theorem length_up? {n : Nat} {path up : String} (h : up? n path = some up) :
    up.length + n ≤ path.length := by
  induction n generalizing path with
  | zero =>
    obtain rfl := Option.some.inj h
    exact Nat.le_refl _
  | succ n ih =>
    obtain ⟨next, hnext, hup⟩ := Option.bind_eq_some_iff.1 h
    have hshorter := length_parent?_lt hnext
    have hrest := ih hup
    omega

theorem up?_eq_none (path : String) : up? (path.length + 1) path = none := by
  cases h : up? (path.length + 1) path with
  | none => rfl
  | some up =>
    have hlength := length_up? h
    omega

example : (List.range 4).map (up? · "./a") = [some "./a", some ".", some "", none] := by
  decide +kernel

end Path

/-! ### The nearest project -/

/-- Going up `n` times from a directory comes to `root`, and this is the first directory on the way
that has the file of a project. -/
structure Surroundings.IsNearestProject (s : Surroundings) (directory root : String) (n : Nat) :
    Prop where
  above : Path.up? n directory = some root
  hasFile : s.hasPath (Path.join root Configuration.projectFile) = true
  nearest : ∀ m d, m < n → Path.up? m directory = some d →
    s.hasPath (Path.join d Configuration.projectFile) = false

/-- No directory on the way up has the file of a project. -/
def Surroundings.HasNoProject (s : Surroundings) (directory : String) : Prop :=
  ∀ n d, Path.up? n directory = some d →
    s.hasPath (Path.join d Configuration.projectFile) = false

namespace Configuration

variable {s : Surroundings} {directory root : String}

theorem projectRoot?_eq_some_iff :
    projectRoot? s directory = some root ↔ ∃ n, s.IsNearestProject directory root n := by
  rw [projectRoot?, List.find?_eq_some_iff_getElem]
  constructor
  · rintro ⟨hfile, n, hn, hroot, hnearest⟩
    refine ⟨n, ?_, hfile, fun m d hm hd => ?_⟩
    · rw [← Path.getElem?_ancestors, List.getElem?_eq_getElem hn, hroot]
    · rw [← Path.getElem?_ancestors, List.getElem?_eq_getElem (by omega)] at hd
      rw [← Option.some.inj hd]
      simpa using hnearest m hm
  · rintro ⟨n, habove, hfile, hnearest⟩
    rw [← Path.getElem?_ancestors] at habove
    obtain ⟨hn, hroot⟩ := List.getElem?_eq_some_iff.1 habove
    refine ⟨hfile, n, hn, hroot, fun m hm => ?_⟩
    have hd := hnearest m _ hm
      (by rw [← Path.getElem?_ancestors, List.getElem?_eq_getElem (by omega)])
    rw [hd]
    rfl

theorem projectRoot?_eq_none_iff : projectRoot? s directory = none ↔ s.HasNoProject directory := by
  rw [projectRoot?, List.find?_eq_none]
  constructor
  · intro h n d hd
    rw [← Path.getElem?_ancestors] at hd
    exact Bool.eq_false_iff.2 (h d (List.mem_of_getElem? hd))
  · intro h d hd
    obtain ⟨n, hn⟩ := List.mem_iff_getElem?.1 hd
    rw [Path.getElem?_ancestors] at hn
    exact Bool.eq_false_iff.1 (h n d hn)

theorem projectRoot_of_assemble {userFile : Option String} {project : Settings}
    {projectRoot : Option String} {c : Configuration}
    (h : assemble s userFile project projectRoot = .ok c) : c.projectRoot = projectRoot := by
  obtain ⟨-, -, rfl⟩ := assemble_eq_ok.1 h
  rfl

/-- **The nearest project wins.** Going up from a directory comes to an end, and on the way there is
a first directory with the file of a project, or none has one. In the first case that file is the
one that is loaded: the result is that of its settings, with this very directory as the root of the
project, and if the file cannot be read or does not hold settings, loading fails with that error,
whatever files there are further up. In the second case the layer of the project is empty, and there
is no root. -/
theorem nearest_project_wins (s : Surroundings) (userFile : Option String) (directory : String) :
    Path.up? (directory.length + 1) directory = none ∧
    ((∃ root n, s.IsNearestProject directory root n) ∨ s.HasNoProject directory) ∧
    (∀ root n, s.IsNearestProject directory root n →
      (∀ e, Settings.ofFile s (Path.join root projectFile) = .error e →
        ofDirectory s userFile directory = .error e) ∧
      (∀ text, s.read (Path.join root projectFile) = .ok text → Settings.ofText? text = none →
        ofDirectory s userFile directory = .error (.malformed (Path.join root projectFile))) ∧
      (∀ project, s.HoldsSettings (Path.join root projectFile) project →
        ofDirectory s userFile directory = assemble s userFile project (some root)) ∧
      ∀ c, ofDirectory s userFile directory = .ok c → c.projectRoot = some root) ∧
    (s.HasNoProject directory →
      ofDirectory s userFile directory = assemble s userFile .empty none ∧
      ∀ c, ofDirectory s userFile directory = .ok c → c.projectRoot = none) := by
  refine ⟨Path.up?_eq_none directory, ?_, fun root n hnearest => ?_, fun hnone => ?_⟩
  · cases hroot : projectRoot? s directory with
    | none => exact Or.inr (projectRoot?_eq_none_iff.1 hroot)
    | some root => exact Or.inl ⟨root, projectRoot?_eq_some_iff.1 hroot⟩
  · have hroot := projectRoot?_eq_some_iff.2 ⟨n, hnearest⟩
    have hload : ofDirectory s userFile directory =
        (do
          let project ← Settings.ofFile s (Path.join root projectFile)
          assemble s userFile project (some root)) := by
      rw [ofDirectory, hroot]
    have hfails (e : SettingsError)
        (he : Settings.ofFile s (Path.join root projectFile) = .error e) :
        ofDirectory s userFile directory = .error e := by
      rw [hload, he]
      rfl
    refine ⟨hfails, fun text hread htext => ?_, fun project hproject => ?_, fun c hc => ?_⟩
    · refine hfails _ ?_
      rw [Settings.ofFile, hread]
      dsimp only
      rw [htext]
    · rw [hload, Settings.ofFile_eq_ok.2 hproject]
      rfl
    · rw [hload] at hc
      obtain ⟨project, -, hassemble⟩ := bind_eq_ok.1 hc
      exact projectRoot_of_assemble hassemble
  · have hload : ofDirectory s userFile directory = assemble s userFile .empty none := by
      rw [ofDirectory, projectRoot?_eq_none_iff.2 hnone]
    refine ⟨hload, fun c hc => ?_⟩
    rw [hload] at hc
    exact projectRoot_of_assemble hc

end Configuration

end RegisterMachine
