import RegisterMachine.Chunk.Stored
import RegisterMachine.Proofs.Failing
import RegisterMachine.Proofs.JsonText

/-!
# Stored chunks are read back

Writing a chunk and reading it again gives the same chunk, at every level of nesting
(`Chunk.stored_form_reads_back`). Two things can be in the way: a number whose text stands for
another number, because numerals are read with two roundings, and a nesting that the reader
refuses. With other numbers it is the chunk of `Chunk.mapNumbers` that comes back. A function takes
two levels of nesting, its object and the list it stands in, and the innermost object needs two more
for its positions, so that functions may be nested 62 deep. What the reader accepts is never nested
deeper, because every chunk has a list of instructions.
-/

namespace RegisterMachine

open Json

/-! ### Whole values -/

namespace Json

theorem isWhole_ofNat (n : Nat) : (ofNat n).IsWhole := Numeral.isRegular_digitsOf false n

theorem isWhole_ofItems {vs : List Json} (h : ∀ v ∈ vs, v.IsWhole) :
    (Items.ofList vs).IsWhole := by
  induction vs with
  | nil => trivial
  | cons v vs ih =>
    obtain ⟨hv, hvs⟩ := List.forall_mem_cons.1 h
    exact ⟨hv, ih hvs⟩

theorem isWhole_ofMembers {ms : List (String × Json)} (h : ∀ m ∈ ms, m.2.IsWhole) :
    (Members.ofList ms).IsWhole := by
  induction ms with
  | nil => trivial
  | cons m ms ih =>
    obtain ⟨hm, hms⟩ := List.forall_mem_cons.1 h
    exact ⟨rfl, hm, ih hms⟩

theorem isWhole_ofList_map {α : Type} {write : α → Json} (h : ∀ a, (write a).IsWhole)
    (as : List α) : (ofList (as.map write)).IsWhole := by
  refine isWhole_ofItems fun v hv => ?_
  obtain ⟨a, -, rfl⟩ := List.mem_map.1 hv
  exact h a

end Json

theorem Constant.isWhole_toJson (c : Constant) : c.toJson.IsWhole := by
  cases c with
  | nil | bool | string => trivial
  | number x =>
    rw [toJson]
    split
    · exact NumberLayout.stored.isRegular_numeral x
    · trivial

theorem SourcePosition.isWhole_toJson (p : SourcePosition) : p.toJson.IsWhole := by
  refine isWhole_ofMembers fun m hm => ?_
  simp only [List.mem_cons, List.not_mem_nil, or_false] at hm
  rcases hm with rfl | rfl
  · exact isWhole_ofNat _
  · exact isWhole_ofNat _

namespace Chunk

mutual

theorem isWhole_toJson : ∀ c : Chunk, c.toJson.IsWhole
  | ⟨name, parameterCount, isVararg, maxStackSize, code, constants, positions, functions⟩ => by
    refine isWhole_ofMembers fun m hm => ?_
    simp only [List.mem_cons, List.not_mem_nil, or_false] at hm
    rcases hm with rfl | rfl | rfl | rfl | rfl | rfl | rfl | rfl
    · rfl
    · exact isWhole_ofNat _
    · trivial
    · exact isWhole_ofNat _
    · exact isWhole_ofList_map (fun _ => isWhole_ofNat _) _
    · exact isWhole_ofList_map Constant.isWhole_toJson _
    · exact isWhole_ofList_map SourcePosition.isWhole_toJson _
    · exact isWhole_itemsOf functions

theorem isWhole_itemsOf : ∀ fs : List Chunk, (itemsOf fs).IsWhole
  | [] => trivial
  | f :: fs => ⟨isWhole_toJson f, isWhole_itemsOf fs⟩

end

end Chunk

/-! ### Numbers, positions and constants -/

theorem Numeral.quantity?_digitsOf {n : Nat} (h : n < UInt64.size) :
    quantity? ⟨false, digitsOf n, none, none⟩ = some (.natural n) := by
  have hn : n < Quantity.significandBound := h
  simp [quantity?, hn]

theorem Json.readBelow_ofNat {bound n : Nat} (hn : n < bound) (hbound : bound ≤ UInt64.size) :
    (ofNat n).readBelow bound = .ok n := by
  rw [ofNat, readBelow, Numeral.quantity?_digitsOf (Nat.lt_of_lt_of_le hn hbound)]
  exact if_pos hn

theorem Json.enter_of_lt {levels : Nat} (h : 1 < levels) : enter levels = .ok (levels - 1) :=
  if_neg (Nat.not_le.2 h)

theorem Json.enter_eq_ok {levels inner : Nat} :
    enter levels = .ok inner ↔ 1 < levels ∧ inner = levels - 1 := by
  rw [enter]
  split
  · simp
    omega
  · simp
    omega

namespace SourcePosition

theorem readCoordinate_ofNat (n : UInt32) : readCoordinate (.ofNat n.toNat) = .ok n := by
  rw [readCoordinate, readBelow_ofNat n.toNat_lt (by decide)]
  exact congrArg Except.ok (UInt32.ofNat_toNat)

theorem ofJson_toJson (p : SourcePosition) {levels : Nat} (h : 1 < levels) :
    ofJson levels p.toJson = .ok p := by
  simp [toJson, Json.record, Members.ofList, ofJson, enter_of_lt h, Draft.ofMembers,
    readCoordinate_ofNat]
  rfl

end SourcePosition

namespace Constant

/-- The number is finite, and the text that is written of it stands for it again. -/
def NumberReadsBack (x : Float) : Prop :=
  Binary64.isFinite x = true ∧
    (Document.ofText (number x).toJson.pretty).decode (ofJson depthLimit) = .ok (number x)

theorem numberReadsBack_of_quantity {x : Float} {q : Quantity}
    (hfinite : Binary64.isFinite x = true)
    (hq : (NumberLayout.stored.numeral x).quantity? = some q) (hx : q.toFloat = x) :
    NumberReadsBack x := by
  refine ⟨hfinite, ?_⟩
  rw [decode_pretty (isWhole_toJson _), toJson, if_pos hfinite, ofJson, readFloat, hq]
  exact congrArg (fun x => Except.ok (number x)) hx

/-- What is written of a number is read as the constant. -/
def NumberIsReadAs (x : Float) (c : Constant) : Prop :=
  ∀ levels, ofJson levels (number x).toJson = .ok c

theorem NumberReadsBack.isReadAs {x : Float} (h : NumberReadsBack x) :
    NumberIsReadAs x (number x) := by
  obtain ⟨hfinite, hread⟩ := h
  intro levels
  rw [decode_pretty (isWhole_toJson _)] at hread
  rw [toJson, if_pos hfinite] at hread ⊢
  exact hread

def mapNumber (f : Float → Constant) : Constant → Constant
  | number x => f x
  | c => c

/-- A constant comes back as the same constant, of whatever kind it is, unless it is a number. -/
theorem ofJson_toJson {f : Float → Constant} {c : Constant}
    (h : ∀ x, c = number x → NumberIsReadAs x (f x)) (levels : Nat) :
    ofJson levels c.toJson = .ok (c.mapNumber f) := by
  cases c with
  | nil | bool | string => rfl
  | number x => exact h x rfl levels

end Constant

/-! ### Lists -/

namespace Json

variable {α β : Type} {write : α → Json} {f : α → β}

theorem readItemsWith_ofList {read : Json → Except ReadError β} {as : List α}
    (h : ∀ a ∈ as, read (write a) = .ok (f a)) :
    readItemsWith read (Items.ofList (as.map write)) = .ok (as.map f) := by
  induction as with
  | nil => rfl
  | cons a as ih =>
    obtain ⟨ha, has⟩ := List.forall_mem_cons.1 h
    rw [List.map_cons, Items.ofList, readItemsWith, ha, ih has]
    rfl

theorem readArrayWith_ofList {read : Nat → Json → Except ReadError β} {as : Array α} {levels : Nat}
    (hlevels : 1 < levels) (h : ∀ a ∈ as.toList, read (levels - 1) (write a) = .ok (f a)) :
    readArrayWith levels read (ofList (as.toList.map write)) = .ok (as.map f) := by
  rw [ofList, readArrayWith, enter_of_lt hlevels]
  change (do
      return (← readItemsWith (read (levels - 1)) (Items.ofList (as.toList.map write))).toArray)
    = _
  rw [readItemsWith_ofList h, ← Array.toList_map]
  rfl

end Json

/-! ### Chunks -/

namespace Chunk

mutual

def height : Chunk → Nat
  | ⟨_, _, _, _, _, _, _, functions⟩ => heightOf functions

def heightOf : List Chunk → Nat
  | [] => 0
  | f :: fs => max (f.height + 1) (heightOf fs)

end

end Chunk

def Constant.number? : Constant → Option Float
  | number x => some x
  | _ => none

namespace Chunk

mutual

/-- The numbers among the constants of a chunk and of all functions that are nested in it. -/
def numbers : Chunk → List Float
  | ⟨_, _, _, _, _, constants, _, functions⟩ =>
    constants.toList.filterMap Constant.number? ++ numbersOf functions

def numbersOf : List Chunk → List Float
  | [] => []
  | f :: fs => f.numbers ++ numbersOf fs

end

mutual

/-- The chunk with another constant in place of each number, also in the functions that are nested
in it. -/
def mapNumbers (f : Float → Constant) : Chunk → Chunk
  | ⟨name, parameterCount, isVararg, maxStackSize, code, constants, positions, functions⟩ =>
    ⟨name, parameterCount, isVararg, maxStackSize, code, constants.map (Constant.mapNumber f),
      positions, mapAllNumbers f functions⟩

def mapAllNumbers (f : Float → Constant) : List Chunk → List Chunk
  | [] => []
  | c :: cs => c.mapNumbers f :: mapAllNumbers f cs

end

theorem map_mapNumber_eq_self_iff {f : Float → Constant} {constants : Array Constant} :
    constants.map (Constant.mapNumber f) = constants ↔
      ∀ x ∈ constants.toList.filterMap Constant.number?, f x = .number x := by
  have hmap : constants.toList.map (Constant.mapNumber f) = constants.toList ↔
      ∀ c ∈ constants.toList, c.mapNumber f = c := by
    have hiff := List.map_inj_left (l := constants.toList) (f := Constant.mapNumber f) (g := id)
    rwa [List.map_id] at hiff
  rw [← Array.toList_inj, Array.toList_map, hmap]
  constructor
  · intro h x hx
    obtain ⟨c, hc, hnumber⟩ := List.mem_filterMap.1 hx
    cases c with
    | number y =>
      obtain rfl := Option.some.inj hnumber
      exact h _ hc
    | nil | bool | string => cases hnumber
  · intro h c hc
    cases c with
    | number x => exact h x (List.mem_filterMap.2 ⟨_, hc, rfl⟩)
    | nil | bool | string => rfl

mutual

/-- A chunk is left as it is just if each of its numbers is. -/
theorem mapNumbers_eq_self_iff {f : Float → Constant} : ∀ c : Chunk,
    c.mapNumbers f = c ↔ ∀ x ∈ c.numbers, f x = .number x
  | ⟨name, parameterCount, isVararg, maxStackSize, code, constants, positions, functions⟩ => by
    rw [mapNumbers, numbers, List.forall_mem_append, ← map_mapNumber_eq_self_iff,
      ← mapAllNumbers_eq_self_iff functions]
    simp only [Chunk.mk.injEq, true_and]

theorem mapAllNumbers_eq_self_iff {f : Float → Constant} : ∀ cs : List Chunk,
    mapAllNumbers f cs = cs ↔ ∀ x ∈ numbersOf cs, f x = .number x
  | [] => ⟨fun _ => nofun, fun _ => rfl⟩
  | c :: cs => by
    rw [mapAllNumbers, numbersOf, List.forall_mem_append, List.cons.injEq,
      mapNumbers_eq_self_iff c, mapAllNumbers_eq_self_iff cs]

end

/-! ### Fields -/

def written (c : Chunk) : Field → Json
  | .name => .ofString c.name
  | .parameterCount => .ofNat c.parameterCount.toNat
  | .isVararg => .bool c.isVararg
  | .maxStackSize => .ofNat c.maxStackSize.toNat
  | .code => .ofList (c.code.toList.map fun i => .ofNat i.word.toNat)
  | .constants => .ofList (c.constants.toList.map Constant.toJson)
  | .positions => .ofList (c.positions.toList.map SourcePosition.toJson)
  | .functions => .array (itemsOf c.functions)

theorem toJson_eq (c : Chunk) :
    c.toJson = Json.record (Field.all.map fun field => (field.key, c.written field)) := by
  obtain ⟨name, parameterCount, isVararg, maxStackSize, code, constants, positions, functions⟩ := c
  rw [toJson]
  rfl

def Draft.take (d : Draft) (c : Chunk) : Field → Draft
  | .name => { d with name := some c.name }
  | .parameterCount => { d with parameterCount := some c.parameterCount }
  | .isVararg => { d with isVararg := some c.isVararg }
  | .maxStackSize => { d with maxStackSize := some c.maxStackSize }
  | .code => { d with code := some c.code }
  | .constants => { d with constants := some c.constants }
  | .positions => { d with positions := some c.positions }
  | .functions => { d with functions := some c.functions }

theorem Draft.has_take (d : Draft) (c : Chunk) (field other : Field) :
    (d.take c field).has other = (decide (field = other) || d.has other) := by
  cases field <;> cases other <;> rfl

/-- When all fields of a chunk have been read, the chunk has been read. -/
theorem Draft.finish_take (c : Chunk) :
    (Field.all.foldl (fun d field => d.take c field) ({} : Draft)).finish = .ok c := by
  obtain ⟨name, parameterCount, isVararg, maxStackSize, code, constants, positions, functions⟩ := c
  rfl

theorem ofKey?_key (field : Field) : Field.ofKey? field.key = some field := by
  cases field <;> decide

theorem ofMembers_field {levels : Nat} {d d' : Draft} {field : Field} {v : Json} {rest : Members}
    (hnew : d.has field = false) (hread : readField levels field d v = .ok d') :
    ofMembers levels d (.member (some field.key) v rest) = ofMembers levels d' rest := by
  rw [ofMembers, ofKey?_key]
  dsimp only
  rw [hnew, if_neg Bool.false_ne_true, hread]
  rfl

/-- If all fields of a chunk are read as those of another one, they are read one after the other. -/
theorem ofMembers_written {c c' : Chunk} {levels : Nat}
    (hread : ∀ d field, readField levels field d (c.written field) = .ok (d.take c' field))
    {fields : List Field} (hnodup : fields.Nodup) {d : Draft}
    (hnew : ∀ field ∈ fields, d.has field = false) :
    ofMembers levels d (Members.ofList (fields.map fun field => (field.key, c.written field))) =
      .ok (fields.foldl (fun d field => d.take c' field) d) := by
  induction fields generalizing d with
  | nil => rfl
  | cons field fields ih =>
    obtain ⟨hfield, hfields⟩ := List.forall_mem_cons.1 hnew
    obtain ⟨hother, hnodup⟩ := List.nodup_cons.1 hnodup
    rw [List.map_cons, Members.ofList, ofMembers_field hfield (hread d field)]
    refine ih hnodup fun other hmem => ?_
    have hne : field ≠ other := fun heq => hother (heq ▸ hmem)
    rw [Draft.has_take, hfields other hmem, decide_eq_false hne]
    rfl

theorem readInstruction_ofNat (i : Instruction) (levels : Nat) :
    readInstruction levels (.ofNat i.word.toNat) = .ok i := by
  rw [readInstruction, readBelow_ofNat i.word.toNat_lt (by decide)]
  exact congrArg (fun word => Except.ok (Instruction.mk word)) UInt32.ofNat_toNat

section

variable {f : Float → Constant}

/-- The fields other than the nested functions are read as they are, but for the numbers. -/
theorem readScalar_written {c : Chunk} {levels : Nat} (hlevels : 2 < levels)
    (hconstants : ∀ x ∈ c.constants.toList.filterMap Constant.number?,
      Constant.NumberIsReadAs x (f x))
    (d : Draft) {field : Field} (hfield : field ≠ .functions) :
    d.readScalar levels field (c.written field) = .ok (d.take (c.mapNumbers f) field) := by
  obtain ⟨name, parameterCount, isVararg, maxStackSize, code, constants, positions, functions⟩ := c
  cases field with
  | functions => exact absurd rfl hfield
  | name | isVararg => rfl
  | parameterCount =>
    rw [Draft.readScalar, written, readBelow_ofNat parameterCount.toNat_lt (by decide)]
    exact congrArg (fun n => Except.ok { d with parameterCount := some n }) UInt8.ofNat_toNat
  | maxStackSize =>
    rw [Draft.readScalar, written, readBelow_ofNat maxStackSize.toNat_lt (by decide)]
    exact congrArg (fun n => Except.ok { d with maxStackSize := some n }) UInt16.ofNat_toNat
  | code =>
    have hread : readArrayWith levels readInstruction
        (.ofList (code.toList.map fun i => .ofNat i.word.toNat)) = .ok (code.map id) :=
      readArrayWith_ofList (by omega) fun i _ => readInstruction_ofNat i _
    rw [Array.map_id] at hread
    rw [Draft.readScalar, written, hread]
    rfl
  | constants =>
    have hread : readArrayWith levels Constant.ofJson
        (.ofList (constants.toList.map Constant.toJson)) =
          .ok (constants.map (Constant.mapNumber f)) := by
      refine readArrayWith_ofList (by omega) fun constant hmem => ?_
      refine Constant.ofJson_toJson (fun x hx => hconstants x ?_) _
      exact List.mem_filterMap.2 ⟨constant, hmem, hx ▸ rfl⟩
    rw [Draft.readScalar, written, hread]
    rfl
  | positions =>
    have hread : readArrayWith levels SourcePosition.ofJson
        (.ofList (positions.toList.map SourcePosition.toJson)) = .ok (positions.map id) :=
      readArrayWith_ofList (by omega) fun p _ => p.ofJson_toJson (by omega)
    rw [Array.map_id] at hread
    rw [Draft.readScalar, written, hread]
    rfl

theorem readField_scalar {levels : Nat} {d : Draft} {field : Field} {v : Json}
    (h : field ≠ .functions) : readField levels field d v = d.readScalar levels field v := by
  rw [readField]
  · exact fun hfield => h hfield
  · exact fun _ hfield _ => h hfield

/-! ### Reading what was written -/

theorem ofJson_written {c : Chunk} {levels : Nat} (hlevels : 4 ≤ levels)
    (hconstants : ∀ x ∈ c.constants.toList.filterMap Constant.number?,
      Constant.NumberIsReadAs x (f x))
    (hfunctions : listOf (levels - 2) (itemsOf c.functions) = .ok (mapAllNumbers f c.functions)) :
    ofJson levels c.toJson = .ok (c.mapNumbers f) := by
  have hread (d : Draft) (field : Field) :
      readField (levels - 1) field d (c.written field) = .ok (d.take (c.mapNumbers f) field) := by
    by_cases hfield : field = .functions
    · rw [hfield, written, readField, enter_of_lt (by omega)]
      change (do return { d with functions := some (← listOf (levels - 2) _) }) = _
      rw [hfunctions]
      cases c
      rfl
    · rw [readField_scalar hfield]
      exact readScalar_written (by omega) hconstants d hfield
  have hnew (field : Field) : ({} : Draft).has field = false := by
    cases field <;> rfl
  rw [toJson_eq, record, ofJson, enter_of_lt (by omega)]
  change (do (← ofMembers (levels - 1) {} _).finish) = _
  rw [ofMembers_written hread (by decide) fun field _ => hnew field]
  exact Draft.finish_take (c.mapNumbers f)

mutual

/-- With two levels for each nested function and four for the innermost one, a chunk comes back,
with each number as what it is read as. -/
theorem ofJson_toJson_mapNumbers : ∀ (c : Chunk) (levels : Nat), 2 * c.height + 4 ≤ levels →
    (∀ x ∈ c.numbers, Constant.NumberIsReadAs x (f x)) →
      ofJson levels c.toJson = .ok (c.mapNumbers f)
  | ⟨name, parameterCount, isVararg, maxStackSize, code, constants, positions, functions⟩, levels,
      hlevels, hnumbers => by
    rw [height] at hlevels
    rw [numbers] at hnumbers
    refine ofJson_written (by omega) (fun x hx => hnumbers x (List.mem_append_left _ hx)) ?_
    exact listOf_itemsOf functions (levels - 2) (by omega)
      fun x hx => hnumbers x (List.mem_append_right _ hx)

theorem listOf_itemsOf : ∀ (cs : List Chunk) (levels : Nat), 2 * heightOf cs + 2 ≤ levels →
    (∀ x ∈ numbersOf cs, Constant.NumberIsReadAs x (f x)) →
      listOf levels (itemsOf cs) = .ok (mapAllNumbers f cs)
  | [], _, _, _ => rfl
  | c :: cs, levels, hlevels, hnumbers => by
    rw [heightOf] at hlevels
    rw [numbersOf] at hnumbers
    have hhead := ofJson_toJson_mapNumbers c levels (by omega)
      fun x hx => hnumbers x (List.mem_append_left _ hx)
    have htail := listOf_itemsOf cs levels (by omega)
      fun x hx => hnumbers x (List.mem_append_right _ hx)
    rw [itemsOf, listOf, hhead, htail]
    rfl

end

/-- Without numbers that are read as others, it is the same chunk. -/
theorem ofJson_toJson (c : Chunk) (levels : Nat) (hlevels : 2 * c.height + 4 ≤ levels)
    (hnumbers : ∀ x ∈ c.numbers, Constant.NumberReadsBack x) : ofJson levels c.toJson = .ok c := by
  have hread := ofJson_toJson_mapNumbers (f := .number) c levels hlevels
    fun x hx => (hnumbers x hx).isReadAs
  rwa [(mapNumbers_eq_self_iff c).2 fun _ _ => rfl] at hread

end

/-! ### How deep accepted chunks are nested -/

/-- The fields that have been read fit into the levels that are left inside of the chunk. -/
structure Draft.Fits (d : Draft) (levels : Nat) : Prop where
  code : d.code.isSome → 2 ≤ levels
  functions : ∀ fs ∈ d.functions, 2 * heightOf fs + 2 ≤ levels

theorem readArrayWith_levels {α : Type} {levels : Nat} {read : Nat → Json → Except ReadError α}
    {v : Json} {as : Array α} (h : readArrayWith levels read v = .ok as) : 2 ≤ levels := by
  cases v with
  | array items =>
    rw [readArrayWith] at h
    obtain ⟨inner, henter, -⟩ := bind_eq_ok.1 h
    exact (enter_eq_ok.1 henter).1
  | _ => cases h

theorem Draft.Fits.readScalar {d d' : Draft} {levels : Nat} (hd : d.Fits levels) {field : Field}
    {v : Json} (h : d.readScalar levels field v = .ok d') : d'.Fits levels := by
  cases field with
  | functions =>
    cases h
    exact hd
  | code =>
    obtain ⟨code, hcode, hd'⟩ := bind_eq_ok.1 h
    cases hd'
    exact ⟨fun _ => readArrayWith_levels hcode, hd.functions⟩
  | name | parameterCount | isVararg | maxStackSize | constants | positions =>
    obtain ⟨a, -, hd'⟩ := bind_eq_ok.1 h
    cases hd'
    exact ⟨hd.code, hd.functions⟩

theorem Draft.Fits.finish {d : Draft} {levels : Nat} (hd : d.Fits levels) {c : Chunk}
    (h : d.finish = .ok c) : 2 * c.height + 2 ≤ levels := by
  unfold Draft.finish at h
  split at h
  · rename_i name code hname hcode
    cases h
    rw [height]
    cases hfunctions : d.functions with
    | none => exact hd.code (hcode ▸ rfl)
    | some fs => exact hd.functions fs hfunctions
  · cases h

mutual

/-- A chunk is read only if there are two levels for each nested function, and three more. -/
theorem height_of_ofJson : ∀ (v : Json) (levels : Nat) (c : Chunk), ofJson levels v = .ok c →
    2 * c.height + 3 ≤ levels
  | .array items, levels, c, h => by
    rw [ofJson] at h
    obtain ⟨inner, henter, h⟩ := bind_eq_ok.1 h
    obtain ⟨d, hitems, hfinish⟩ := bind_eq_ok.1 h
    have hd := (fits_ofItems items inner Field.all {} d ⟨nofun, nofun⟩ hitems).finish hfinish
    obtain ⟨hlevels, rfl⟩ := enter_eq_ok.1 henter
    omega
  | .object members, levels, c, h => by
    rw [ofJson] at h
    obtain ⟨inner, henter, h⟩ := bind_eq_ok.1 h
    obtain ⟨d, hmembers, hfinish⟩ := bind_eq_ok.1 h
    have hd := (fits_ofMembers members inner {} d ⟨nofun, nofun⟩ hmembers).finish hfinish
    obtain ⟨hlevels, rfl⟩ := enter_eq_ok.1 henter
    omega
  | .null, _, _, h | .bool _, _, _, h | .number _, _, _, h | .string _, _, _, h
  | .torn _, _, _, h => by cases h

theorem fits_ofItems : ∀ (items : Items) (levels : Nat) (fields : List Field) (d d' : Draft),
    d.Fits levels → ofItems levels fields d items = .ok d' → d'.Fits levels
  | .done, _, _, _, _, hd, h => by
    cases h
    exact hd
  | .torn _, _, _, _, _, _, h => by cases h
  | .item _ _, _, [], _, _, _, h => by cases h
  | .item v rest, levels, field :: fields, d, d', hd, h => by
    rw [ofItems] at h
    obtain ⟨next, hfield, hrest⟩ := bind_eq_ok.1 h
    have hnext := fits_readField v levels field d next hd hfield
    exact fits_ofItems rest levels fields next d' hnext hrest

theorem fits_ofMembers : ∀ (members : Members) (levels : Nat) (d d' : Draft),
    d.Fits levels → ofMembers levels d members = .ok d' → d'.Fits levels
  | .done, _, _, _, hd, h => by
    cases h
    exact hd
  | .torn _, _, _, _, _, h => by cases h
  | .member none _ _, _, _, _, _, h => by cases h
  | .member (some key) v rest, levels, d, d', hd, h => by
    rw [ofMembers] at h
    split at h
    · obtain ⟨-, -, hrest⟩ := bind_eq_ok.1 h
      exact fits_ofMembers rest levels d d' hd hrest
    · split at h
      · cases h
      · obtain ⟨next, hfield, hrest⟩ := bind_eq_ok.1 h
        have hnext := fits_readField v levels _ d next hd hfield
        exact fits_ofMembers rest levels next d' hnext hrest

theorem fits_readField : ∀ (v : Json) (levels : Nat) (field : Field) (d d' : Draft),
    d.Fits levels → readField levels field d v = .ok d' → d'.Fits levels
  | v, levels, field, d, d', hd, h => by
    by_cases hfield : field = .functions
    · subst hfield
      cases v with
      | array items =>
        rw [readField] at h
        obtain ⟨inner, henter, h⟩ := bind_eq_ok.1 h
        obtain ⟨fs, hfs, hd'⟩ := bind_eq_ok.1 h
        obtain ⟨hlevels, rfl⟩ := enter_eq_ok.1 henter
        have hheight := heightOf_of_listOf items (levels - 1) fs (by omega) hfs
        cases hd'
        refine ⟨hd.code, fun fs' hfs' => ?_⟩
        rw [← Option.some.inj hfs']
        omega
      | null | bool | number | string | object | torn => cases h
    · rw [readField_scalar hfield] at h
      exact hd.readScalar h

theorem heightOf_of_listOf : ∀ (items : Items) (levels : Nat) (fs : List Chunk), 1 ≤ levels →
    listOf levels items = .ok fs → 2 * heightOf fs + 1 ≤ levels
  | .done, levels, fs, hlevels, h => by
    cases h
    exact hlevels
  | .torn _, _, _, _, h => by cases h
  | .item head rest, levels, fs, hlevels, h => by
    rw [listOf] at h
    obtain ⟨f, hhead, h⟩ := bind_eq_ok.1 h
    obtain ⟨fs', hrest, hfs⟩ := bind_eq_ok.1 h
    cases hfs
    have hf := height_of_ofJson head levels f hhead
    have hfs' := heightOf_of_listOf rest levels fs' hlevels hrest
    rw [heightOf]
    omega

end

/-- **Stored chunks are read back.** A chunk with functions nested at most 62 deep and with numbers
that read back each for itself comes back as it was, with all that is nested in it. Whatever text is
accepted gives a chunk that is nested no deeper, so this chunk can be written and read again. -/
theorem stored_form_reads_back :
    (∀ c : Chunk, c.height ≤ 62 → (∀ x ∈ c.numbers, Constant.NumberReadsBack x) →
      ofText c.toText = .ok c) ∧
    ∀ (text : String) (c : Chunk), ofText text = .ok c →
      c.height ≤ 62 ∧ ((∀ x ∈ c.numbers, Constant.NumberReadsBack x) → ofText c.toText = .ok c) := by
  have hfirst (c : Chunk) (hheight : c.height ≤ 62)
      (hnumbers : ∀ x ∈ c.numbers, Constant.NumberReadsBack x) : ofText c.toText = .ok c := by
    have hlevels : 2 * c.height + 4 ≤ depthLimit := by
      rw [depthLimit]
      omega
    rw [ofText, toText, decode_pretty (isWhole_toJson c)]
    exact ofJson_toJson c depthLimit hlevels hnumbers
  refine ⟨hfirst, fun text c htext => ?_⟩
  obtain ⟨c', hvalue, hmore⟩ := bind_eq_ok.1 htext
  have hc : c' = c := by
    split at hmore
    · cases hmore
    · exact Except.ok.inj hmore
  have hheight := height_of_ofJson _ _ _ hvalue
  rw [depthLimit, hc] at hheight
  exact ⟨by omega, hfirst c (by omega)⟩

def keeping : Chunk :=
  { empty "keeping \"quotes\"" with
    code := #[.abc .loadK 0 0 0]
    constants := #[.nil, .bool true, .number 1.5, .string "1.5\n"]
    functions := [{ empty "kept" with constants := #[.number 0.1], positions := #[⟨2, 7⟩] }] }

def listed : Chunk :=
  { empty "listed" with
    parameterCount := 1
    isVararg := true
    code := #[⟨7⟩]
    constants := #[.nil, .string "s"] }

def listedFields : Json :=
  .ofList [.ofString "listed", .ofNat 1, .bool true, .ofNat 0, .ofList [.ofNat 7],
    .ofList [.null, .ofString "s"]]

theorem isWhole_listedFields : listedFields.IsWhole := by
  refine isWhole_ofItems fun v hv => ?_
  simp only [List.mem_cons, List.not_mem_nil, or_false] at hv
  rcases hv with rfl | rfl | rfl | rfl | rfl | rfl
  · rfl
  · exact isWhole_ofNat 1
  · trivial
  · exact isWhole_ofNat 0
  · exact isWhole_ofList_map isWhole_ofNat [7]
  · exact isWhole_ofList_map Constant.isWhole_toJson [.nil, .string "s"]

/-- Constants of all kinds come back, and one level of nesting does. A text that is not the one that
is written gives a chunk that comes back too. -/
theorem keeping_reads_back :
    keeping.height = 1 ∧ (∀ x ∈ keeping.numbers, Constant.NumberReadsBack x) ∧
      ofText keeping.toText = .ok keeping ∧
      ofText listedFields.pretty = .ok listed ∧ ofText listed.toText = .ok listed := by
  have hheight : keeping.height = 1 := rfl
  have hlist : keeping.numbers = [1.5, 0.1] := rfl
  have hlarge : NumberLayout.stored.numeral 1.5 = ⟨false, ['1'], some ['5'], none⟩ := by
    decide +kernel
  have hsmall : NumberLayout.stored.numeral 0.1 = ⟨false, ['0'], some ['1'], none⟩ := by
    decide +kernel
  have hnumbers : ∀ x ∈ keeping.numbers, Constant.NumberReadsBack x := by
    rw [hlist]
    intro x hx
    simp only [List.mem_cons, List.not_mem_nil, or_false] at hx
    rcases hx with rfl | rfl
    · refine Constant.numberReadsBack_of_quantity (q := .real 1.5) rfl ?_ rfl
      rw [hlarge]
      change (Quantity.scale? 15 (-1)).map _ = _
      rw [Quantity.scale?]
      rfl
    · refine Constant.numberReadsBack_of_quantity (q := .real 0.1) rfl ?_ rfl
      rw [hsmall]
      change (Quantity.scale? 1 (-1)).map _ = _
      rw [Quantity.scale?]
      rfl
  have hlisted : ofText listedFields.pretty = .ok listed := by
    rw [ofText, decode_pretty isWhole_listedFields]
    rfl
  have hagain := stored_form_reads_back.2 _ listed hlisted
  exact ⟨hheight, hnumbers, stored_form_reads_back.1 keeping (by omega) hnumbers, hlisted,
    hagain.2 nofun⟩

end Chunk

end RegisterMachine
