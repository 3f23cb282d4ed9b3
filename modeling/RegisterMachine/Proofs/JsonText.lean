import Mathlib.Data.List.DropRight
import RegisterMachine.Json.Printer
import RegisterMachine.Json.Shape
import RegisterMachine.Proofs.Numerals

/-!
# JSON texts are read as what was written

A value is whole if it has a text: it has no tears, no strings with half a character, and its
numerals are regular. Reading the pretty text of a whole value gives this value and nothing else
(`Json.ofText_pretty`).

The induction is on the value, for any text behind its own. What stands behind a value must not
continue its last numeral; in a pretty text a comma or the end of a line does not. Every call of
the reader takes a character, so the supply of steps is large enough if it is larger than the text.
-/

namespace RegisterMachine

namespace Json

/-! ### Strings -/

/-- The digits of an escape for a control character stand for this character. -/
theorem readString_control {c : Char} (hc : c.toNat < 0x20) (scanned rest : List Char) :
    readString (some scanned) (.digits none 0 0)
        ('0' :: '0' :: Hexadecimal.digit (c.toNat / 16) :: Hexadecimal.digit (c.toNat % 16) :: rest) =
      readString (some (c :: scanned)) .plain rest := by
  have hzero : Hexadecimal.value? '0' = some 0 := rfl
  have hhigh := Hexadecimal.value?_digit (c.toNat / 16) (by omega)
  have hlow := Hexadecimal.value?_digit (c.toNat % 16) (by omega)
  have hvalue : 16 * (c.toNat / 16) + c.toNat % 16 = c.toNat := Nat.div_add_mod c.toNat 16
  have hlowSurrogate : isLowSurrogate c.toNat = false := by
    simp only [isLowSurrogate, Bool.and_eq_false_imp, decide_eq_true_eq]
    omega
  have hhighSurrogate : isHighSurrogate c.toNat = false := by
    simp only [isHighSurrogate, Bool.and_eq_false_imp, decide_eq_true_eq]
    omega
  simp [readString, hzero, hhigh, hlow, hvalue, Scanned.addUnit, hlowSurrogate, hhighSurrogate,
    Char.ofNat_toNat]

theorem readString_escapeChar (c : Char) (scanned rest : List Char) :
    readString (some scanned) .plain (escapeChar c ++ rest) =
      readString (some (c :: scanned)) .plain rest := by
  unfold escapeChar
  -- seven characters are escaped by a letter
  iterate 7
    split
    · subst_vars
      rfl
  split
  · rename_i hcontrol
    exact readString_control hcontrol scanned rest
  · rename_i hquote hbackslash _ _ _ _ _ hcontrol
    rw [List.singleton_append, readString, if_neg hquote, if_neg hbackslash, if_neg hcontrol]
    rfl

theorem readString_flatMap (cs scanned rest : List Char) :
    readString (some scanned) .plain (cs.flatMap escapeChar ++ '"' :: rest) =
      .ok (some (String.ofList (scanned.reverse ++ cs)), rest) := by
  induction cs generalizing scanned with
  | nil =>
    rw [List.append_nil]
    rfl
  | cons c cs ih =>
    rw [List.flatMap_cons, List.append_assoc, readString_escapeChar, ih, List.reverse_cons,
      List.append_assoc, List.singleton_append]

/-! ### Blanks -/

theorem skipBlanks_newline (level : Nat) (cs : List Char) :
    skipBlanks (newline level ++ cs) = skipBlanks cs := by
  refine List.dropWhile_append_of_pos fun c hc => ?_
  rcases List.mem_cons.1 hc with rfl | hc
  · rfl
  · rw [List.eq_of_mem_replicate hc]
    rfl

/-- A value is read from behind the blanks in front of it. -/
theorem readValue_skipBlanks (steps : Nat) (cs : List Char) :
    readValue steps (skipBlanks cs) = readValue steps cs := by
  cases steps with
  | zero => rfl
  | succ steps => rw [readValue, readValue, skipBlanks, skipBlanks, List.dropWhile_idempotent]

theorem readMember_skipBlanks (steps : Nat) (cs : List Char) :
    readMember steps (skipBlanks cs) = readMember steps cs := by
  cases steps with
  | zero => rfl
  | succ steps => rw [readMember, readMember, skipBlanks, skipBlanks, List.dropWhile_idempotent]

/-! ### Whole values -/

mutual

def IsWhole : Json → Prop
  | null | bool _ => True
  | number n => n.IsRegular
  | string text => text.isSome
  | array items => items.IsWhole
  | object members => members.IsWhole
  | torn _ => False

def Items.IsWhole : Items → Prop
  | .done => True
  | .item head rest => head.IsWhole ∧ rest.IsWhole
  | .torn _ => False

def Members.IsWhole : Members → Prop
  | .done => True
  | .member key value rest => key.isSome ∧ value.IsWhole ∧ rest.IsWhole
  | .torn _ => False

end

/-- A text can start a value: not with a blank, and not like the end of an array. -/
def StartsValue (cs : List Char) : Prop :=
  ∃ c rest, cs = c :: rest ∧ isBlank c = false ∧ c ≠ ']'

theorem StartsValue.append {cs : List Char} (h : StartsValue cs) (rest : List Char) :
    StartsValue (cs ++ rest) := by
  obtain ⟨c, cs', rfl, hc⟩ := h
  exact ⟨c, cs' ++ rest, rfl, hc⟩

theorem StartsValue.skipBlanks_eq {cs : List Char} (h : StartsValue cs) : skipBlanks cs = cs := by
  obtain ⟨c, rest, rfl, hblank, -⟩ := h
  exact List.dropWhile_cons_of_neg (Bool.eq_false_iff.1 hblank)

theorem not_isBlank_of_isDigit {c : Char} (h : c.isDigit = true) : isBlank c = false := by
  cases hblank : isBlank c with
  | false => rfl
  | true =>
    simp only [isBlank, Bool.or_eq_true, beq_iff_eq] at hblank
    rcases hblank with ((rfl | rfl) | rfl) | rfl <;> cases h

theorem startsValue_chars {n : Numeral} (h : n.IsRegular) : StartsValue n.chars := by
  rw [Numeral.chars_eq]
  obtain ⟨c, cs, hwhole⟩ := List.exists_cons_of_ne_nil h.whole.1
  have hc : c.isDigit = true := h.whole.2 c (hwhole ▸ List.mem_cons_self)
  cases n.negative with
  | true => exact ⟨'-', _, rfl, rfl, by decide⟩
  | false =>
    refine StartsValue.append ⟨c, cs, hwhole, not_isBlank_of_isDigit hc, ?_⟩ _
    rintro rfl
    cases hc

theorem startsValue_prettyChars {v : Json} (h : v.IsWhole) (level : Nat) :
    StartsValue (v.prettyChars level) := by
  cases v with
  | null => exact ⟨'n', _, rfl, rfl, by decide⟩
  | bool b => cases b <;> exact ⟨_, _, rfl, rfl, by decide⟩
  | number n => exact startsValue_chars h
  | string text =>
    cases text with
    | none => cases h
    | some text => exact ⟨'"', _, rfl, rfl, by decide⟩
  | array items => cases items <;> exact ⟨'[', _, rfl, rfl, by decide⟩
  | object members => cases members <;> exact ⟨'{', _, rfl, rfl, by decide⟩
  | torn tear => exact h.elim

/-- Behind the items of an array stands nothing that continues a numeral. -/
theorem endsNumeral_items (items : Items) (level closing : Nat) (rest : List Char) :
    EndsNumeral (items.prettyChars level false ++ (newline closing ++ rest)) := by
  intro c hc
  cases items with
  | done | torn => exact Option.some.inj hc ▸ by decide
  | item head items => exact Option.some.inj hc ▸ by decide

theorem endsNumeral_members (members : Members) (level closing : Nat) (rest : List Char) :
    EndsNumeral (members.prettyChars level false ++ (newline closing ++ rest)) := by
  intro c hc
  cases members with
  | done | torn => exact Option.some.inj hc ▸ by decide
  | member key value members =>
    cases key <;> exact Option.some.inj hc ▸ by decide

/-! ### What a call of the reader does -/

section

variable {steps level : Nat} {cs tail rest : List Char} {head value : Json} {items : Items}
  {members : Members}

theorem readValue_bracket (steps : Nat) (cs : List Char) :
    readValue (steps + 1) ('[' :: cs) = match skipBlanks cs with
      | ']' :: rest => (.array .done, rest)
      | rest =>
        let (head, rest) := readValue steps rest
        let (items, rest) := readItems steps rest
        (.array (.item head items), rest) := rfl

theorem readValue_brace (steps : Nat) (cs : List Char) :
    readValue (steps + 1) ('{' :: cs) = match skipBlanks cs with
      | '}' :: rest => (.object .done, rest)
      | rest =>
        let (members, rest) := readMember steps rest
        (.object members, rest) := rfl

theorem readValue_quote (steps : Nat) (cs : List Char) :
    readValue (steps + 1) ('"' :: cs) = match readString (some []) .plain cs with
      | .ok (text, rest) => (.string text, rest)
      | .error tear => (.torn tear, []) := rfl

theorem readItems_comma (steps : Nat) (cs : List Char) :
    readItems (steps + 1) (',' :: cs) =
      let (head, rest) := readValue steps cs
      let (items, rest) := readItems steps rest
      (.item head items, rest) := rfl

theorem readMember_quote (steps : Nat) (cs : List Char) :
    readMember (steps + 1) ('"' :: cs) = match readString (some []) .plain cs with
      | .error tear => (.torn tear, [])
      | .ok (key, rest) =>
        match skipBlanks rest with
        | [] => (.member key (.torn (Tear.of .unfinished)) .done, [])
        | ':' :: rest =>
          let (value, rest) := readValue steps rest
          let (members, rest) := readMembers steps rest
          (.member key value members, rest)
        | _ => (.member key (.torn (Tear.of .malformed)) .done, []) := rfl

theorem readValue_array (hstart : StartsValue cs) (hhead : readValue steps cs = (head, tail))
    (hitems : readItems steps tail = (items, rest)) :
    readValue (steps + 1) ('[' :: (newline level ++ cs)) = (.array (.item head items), rest) := by
  rw [readValue_bracket, skipBlanks_newline, hstart.skipBlanks_eq]
  obtain ⟨c, cs, rfl, -, hc⟩ := hstart
  split
  · rename_i hclose
    exact absurd (List.cons.inj hclose).1 hc
  · dsimp only
    rw [hhead]
    dsimp only
    rw [hitems]

theorem readItems_item (hhead : readValue steps cs = (head, tail))
    (hitems : readItems steps tail = (items, rest)) :
    readItems (steps + 1) (',' :: (newline level ++ cs)) = (.item head items, rest) := by
  rw [readItems_comma, ← readValue_skipBlanks, skipBlanks_newline, readValue_skipBlanks, hhead]
  dsimp only
  rw [hitems]

theorem readItems_done :
    readItems (steps + 1) (newline level ++ ']' :: rest) = (.done, rest) := by
  rw [readItems, skipBlanks_newline]
  rfl

theorem quoted_append (text : String) (cs : List Char) :
    quoted text ++ cs = '"' :: (text.toList.flatMap escapeChar ++ '"' :: cs) := by
  simp [quoted]

theorem readString_quoted (text : String) (cs : List Char) :
    readString (some []) .plain (text.toList.flatMap escapeChar ++ '"' :: cs) =
      .ok (some text, cs) := by
  rw [readString_flatMap, List.reverse_nil, List.nil_append, String.ofList_toList]

theorem readMember_member (key : String) (hvalue : readValue steps cs = (value, tail))
    (hmembers : readMembers steps tail = (members, rest)) :
    readMember (steps + 1) (quoted key ++ ':' :: ' ' :: cs) =
      (.member (some key) value members, rest) := by
  have hblank : readValue steps (' ' :: cs) = readValue steps cs := by
    rw [← readValue_skipBlanks, ← readValue_skipBlanks steps cs]
    rfl
  rw [quoted_append, readMember_quote, readString_quoted]
  -- behind the key stands the colon
  change (Members.member (some key) (readValue steps (' ' :: cs)).1
    (readMembers steps (readValue steps (' ' :: cs)).2).1,
    (readMembers steps (readValue steps (' ' :: cs)).2).2) = _
  rw [hblank, hvalue, hmembers]

theorem readMembers_member (key : String)
    (hmember : readMember steps (quoted key ++ cs) = (members, rest)) :
    readMembers (steps + 1) (',' :: (newline level ++ (quoted key ++ cs))) = (members, rest) := by
  have hcomma (cs : List Char) : readMembers (steps + 1) (',' :: cs) = readMember steps cs := rfl
  rw [hcomma, ← readMember_skipBlanks, skipBlanks_newline, readMember_skipBlanks, hmember]

theorem readMembers_done :
    readMembers (steps + 1) (newline level ++ '}' :: rest) = (.done, rest) := by
  rw [readMembers, skipBlanks_newline]
  rfl

theorem readValue_object (key : String)
    (hmember : readMember steps (quoted key ++ cs) = (members, rest)) :
    readValue (steps + 1) ('{' :: (newline level ++ (quoted key ++ cs))) =
      (.object members, rest) := by
  have hquote : skipBlanks (quoted key ++ cs) = quoted key ++ cs := rfl
  rw [readValue_brace, skipBlanks_newline, hquote]
  split
  · rename_i hclose
    cases hclose
  · dsimp only
    rw [hmember]

theorem readValue_string (text : String) :
    readValue (steps + 1) (quoted text ++ rest) = (.string (some text), rest) := by
  rw [quoted_append, readValue_quote, readString_quoted]

theorem readValue_digit {c : Char} (hc : c.isDigit = true) :
    readValue (steps + 1) (c :: cs) = readNumeral false (c :: cs) := by
  have hskip : skipBlanks (c :: cs) = c :: cs :=
    List.dropWhile_cons_of_neg (Bool.eq_false_iff.1 (not_isBlank_of_isDigit hc))
  rw [readValue, hskip]
  split <;> rename_i heq <;> cases heq <;> first | cases hc | exact if_pos hc

theorem readValue_numeral {n : Numeral} (h : n.IsRegular) (hrest : EndsNumeral rest) :
    readValue (steps + 1) (n.chars ++ rest) = (.number n, rest) := by
  have hread := readNumeral_chars h hrest
  rw [Numeral.chars_eq]
  cases hnegative : n.negative with
  | true =>
    have hminus (cs : List Char) :
        readValue (steps + 1) ('-' :: cs) = readNumeral true cs := rfl
    rw [hnegative] at hread
    simp only [if_true, List.cons_append, List.nil_append, List.append_assoc]
    rw [hminus, hread]
  | false =>
    rw [hnegative] at hread
    obtain ⟨c, cs, hwhole⟩ := List.exists_cons_of_ne_nil h.whole.1
    have hc : c.isDigit = true := h.whole.2 c (hwhole ▸ List.mem_cons_self)
    simp only [Bool.false_eq_true, if_false, List.nil_append, List.append_assoc]
    rw [hwhole, List.cons_append] at hread ⊢
    rw [readValue_digit hc, hread]

end

/-! ### What is written is read -/

mutual

theorem readValue_prettyChars : ∀ (v : Json) (level steps : Nat) (rest : List Char), v.IsWhole →
    EndsNumeral rest → (v.prettyChars level ++ rest).length < steps →
    readValue steps (v.prettyChars level ++ rest) = (v, rest)
  | v, level, 0, rest, _, _, hsteps => absurd hsteps (Nat.not_lt_zero _)
  | .null, _, _ + 1, _, _, _, _ => rfl
  | .bool true, _, _ + 1, _, _, _, _ => rfl
  | .bool false, _, _ + 1, _, _, _, _ => rfl
  | .number n, _, _ + 1, _, hv, hrest, _ => readValue_numeral hv hrest
  | .string (some text), _, _ + 1, _, _, _, _ => readValue_string text
  | .array .done, _, _ + 1, _, _, _, _ => rfl
  | .object .done, _, _ + 1, _, _, _, _ => rfl
  | .array (.item head items), level, steps + 1, rest, ⟨hhead, hitems⟩, _, hsteps => by
    have htext : (array (.item head items)).prettyChars level ++ rest =
        '[' :: (newline (level + 1) ++ (head.prettyChars (level + 1) ++
          (items.prettyChars (level + 1) false ++ (newline level ++ ']' :: rest)))) := by
      simp [prettyChars, Items.prettyChars]
    rw [htext] at hsteps ⊢
    simp only [List.length_cons, List.length_append] at hsteps
    refine readValue_array ((startsValue_prettyChars hhead _).append _)
      (readValue_prettyChars head (level + 1) steps _ hhead (endsNumeral_items _ _ _ _) ?_)
      (readItems_prettyChars items (level + 1) level steps rest hitems ?_)
    all_goals
      simp only [List.length_cons, List.length_append]
      omega
  | .object (.member (some key) value members), level, steps + 1, rest, ⟨_, hvalue, hmembers⟩, _,
      hsteps => by
    have htext : (object (.member (some key) value members)).prettyChars level ++ rest =
        '{' :: (newline (level + 1) ++ (quoted key ++ ':' :: ' ' :: (value.prettyChars (level + 1) ++
          (members.prettyChars (level + 1) false ++ (newline level ++ '}' :: rest))))) := by
      simp [prettyChars, Members.prettyChars]
    rw [htext] at hsteps ⊢
    simp only [List.length_cons, List.length_append] at hsteps
    obtain ⟨steps, rfl⟩ : ∃ k, steps = k + 1 := ⟨steps - 1, by omega⟩
    refine readValue_object key (readMember_member key
      (readValue_prettyChars value (level + 1) steps _ hvalue (endsNumeral_members _ _ _ _) ?_)
      (readMembers_prettyChars members (level + 1) level steps rest hmembers ?_))
    all_goals
      simp only [List.length_cons, List.length_append]
      omega

theorem readItems_prettyChars : ∀ (items : Items) (level closing steps : Nat) (rest : List Char),
    items.IsWhole →
    (items.prettyChars level false ++ (newline closing ++ ']' :: rest)).length < steps →
    readItems steps (items.prettyChars level false ++ (newline closing ++ ']' :: rest)) =
      (items, rest)
  | _, _, _, 0, _, _, hsteps => absurd hsteps (Nat.not_lt_zero _)
  | .done, _, _, _ + 1, _, _, _ => readItems_done
  | .item head items, level, closing, steps + 1, rest, ⟨hhead, hitems⟩, hsteps => by
    have htext : (Items.item head items).prettyChars level false ++
          (newline closing ++ ']' :: rest) =
        ',' :: (newline level ++ (head.prettyChars level ++
          (items.prettyChars level false ++ (newline closing ++ ']' :: rest)))) := by
      simp [Items.prettyChars]
    rw [htext] at hsteps ⊢
    simp only [List.length_cons, List.length_append] at hsteps
    refine readItems_item
      (readValue_prettyChars head level steps _ hhead (endsNumeral_items _ _ _ _) ?_)
      (readItems_prettyChars items level closing steps rest hitems ?_)
    all_goals
      simp only [List.length_cons, List.length_append]
      omega

theorem readMembers_prettyChars : ∀ (members : Members) (level closing steps : Nat)
    (rest : List Char), members.IsWhole →
    (members.prettyChars level false ++ (newline closing ++ '}' :: rest)).length < steps →
    readMembers steps (members.prettyChars level false ++ (newline closing ++ '}' :: rest)) =
      (members, rest)
  | _, _, _, 0, _, _, hsteps => absurd hsteps (Nat.not_lt_zero _)
  | .done, _, _, _ + 1, _, _, _ => readMembers_done
  | .member (some key) value members, level, closing, steps + 1, rest, ⟨_, hvalue, hmembers⟩,
      hsteps => by
    have htext : (Members.member (some key) value members).prettyChars level false ++
          (newline closing ++ '}' :: rest) =
        ',' :: (newline level ++ (quoted key ++ ':' :: ' ' :: (value.prettyChars level ++
          (members.prettyChars level false ++ (newline closing ++ '}' :: rest))))) := by
      simp [Members.prettyChars]
    rw [htext] at hsteps ⊢
    simp only [List.length_cons, List.length_append] at hsteps
    obtain ⟨steps, rfl⟩ : ∃ k, steps = k + 1 := ⟨steps - 1, by omega⟩
    refine readMembers_member key (readMember_member key
      (readValue_prettyChars value level steps _ hvalue (endsNumeral_members _ _ _ _) ?_)
      (readMembers_prettyChars members level closing steps rest hmembers ?_))
    all_goals
      simp only [List.length_cons, List.length_append]
      omega

end

/-- The pretty text of a whole value is read as this value, with nothing behind it. -/
theorem ofText_pretty {v : Json} (h : v.IsWhole) : Document.ofText v.pretty = ⟨v, false⟩ := by
  have hend : EndsNumeral [] := nofun
  have hread := readValue_prettyChars v 0 ((v.prettyChars 0).length + 1) [] h hend (by simp)
  rw [List.append_nil] at hread
  rw [Document.ofText, pretty, String.toList_ofList]
  dsimp only
  rw [hread]
  rfl

/-- To read the pretty text of a whole value is to take the value apart. -/
theorem decode_pretty {α : Type} {v : Json} (h : v.IsWhole) (read : Json → Except ReadError α) :
    (Document.ofText v.pretty).decode read = read v := by
  rw [ofText_pretty h, Document.decode]
  cases read v <;> rfl

end Json

end RegisterMachine
