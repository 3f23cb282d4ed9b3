import RegisterMachine.Machine.Step

/-!
# Tables as maps

To a reader a table is a map from names and indices to values, with a length. It is written to in
four ways: with a raw write under a name or at an index, and with the two instructions that write.
All of them come to an assignment, which is refused or changes the map at one key
(`TableWrite.perform_eq`).

A name always has room, and nil under a name leaves no entry. An index has room up to the one
behind the end, where a write makes the table longer by one; nil at an index is a value like any
other. What a run of writes does follows write by write (`World.tables_are_maps`).
-/

namespace RegisterMachine

inductive TableKey where
  | name (s : String)
  | index (n : Nat)
  deriving DecidableEq, Repr

def Value.asKey? : Value → Option TableKey
  | .string s => some (.name s)
  | .number x => (World.arrayIndex? x).map .index
  | _ => none

/-! ### One table -/

namespace Table

variable {t t' : Table} {n : Nat} {key : TableKey} {value : Value}

def read (t : Table) : TableKey → Value
  | .name s => t.getString s
  | .index n => t.getIndex n

def write? (t : Table) (key : TableKey) (value : Value) : Option Table :=
  match key with
  | .name s => some (t.setString s value)
  | .index n => t.setIndex? n value

/-- A write under the key leaves no hole. -/
def HasRoomFor (t : Table) : TableKey → Prop
  | .name _ => True
  | .index n => 1 ≤ n ∧ n ≤ t.length + 1

/-- One table is the other after a write. -/
structure IsWrite (t t' : Table) (key : TableKey) (value : Value) : Prop where
  read : ∀ other, t'.read other = if other = key then value else t.read other
  entry : ∀ s, t'.hash.get? s =
    if key = .name s then (if value.isNil then none else some value) else t.hash.get? s
  length : t'.length = if key = .index (t.length + 1) then t.length + 1 else t.length
  metatable : t'.metatable = t.metatable

theorem isWrite_setString (t : Table) (s : String) (value : Value) :
    t.IsWrite (t.setString s value) (.name s) value where
  read other := by
    cases other with
    | name other => simp [read, getString_setString, eq_comm]
    | index n => simp [read]
  entry other := by
    unfold setString
    cases value.isNil <;> simp [Dictionary.get?_erase, Dictionary.get?_insert]
  length := rfl
  metatable := rfl

/-- A write at an index replaces a value, or adds one at the end. -/
theorem setIndex?_eq_some (h : t.setIndex? n value = some t') :
    (1 ≤ n ∧ n ≤ t.length ∧ t' = { t with array := t.array.setIfInBounds (n - 1) value }) ∨
      (n = t.length + 1 ∧ t' = { t with array := t.array.push value }) := by
  unfold setIndex? at h
  split at h
  · cases h
  · split at h
    · obtain rfl := Option.some.inj h
      exact .inl ⟨by omega, ‹_›, rfl⟩
    · split at h
      · obtain rfl := Option.some.inj h
        exact .inr ⟨‹_›, rfl⟩
      · cases h

theorem isWrite_setIndex? (h : t.setIndex? n value = some t') :
    t.IsWrite t' (.index n) value where
  read other := by
    cases other with
    | name s => simpa [read] using getString_setIndex? h s
    | index other => simpa [read] using getIndex_setIndex? h other
  entry s := by
    rcases setIndex?_eq_some h with ⟨-, -, rfl⟩ | ⟨-, rfl⟩ <;> simp
  length := by
    rcases setIndex?_eq_some h with ⟨-, hle, rfl⟩ | ⟨rfl, rfl⟩
    · have hkey : TableKey.index n ≠ .index (t.length + 1) := by
        intro heq
        cases heq
        omega
      rw [if_neg hkey]
      exact Array.size_setIfInBounds
    · simp [Table.length]
  metatable := by
    rcases setIndex?_eq_some h with ⟨-, -, rfl⟩ | ⟨-, rfl⟩ <;> rfl

theorem isWrite_of_write? (h : t.write? key value = some t') : t.IsWrite t' key value := by
  cases key with
  | name s =>
    obtain rfl := Option.some.inj h
    exact isWrite_setString t s value
  | index n => exact isWrite_setIndex? h

theorem isSome_write?_iff : (t.write? key value).isSome = true ↔ t.HasRoomFor key := by
  cases key with
  | name s => simp [write?, HasRoomFor]
  | index n =>
    simp only [write?, HasRoomFor, setIndex?, length]
    repeat' split
    all_goals
      simp
      omega

/-- One table is the other after at most one write, of what is `sent` to it: this is written if
there is room for it, and nothing else changes. -/
structure Takes (t t' : Table) (sent : TableKey → Value → Prop) : Prop where
  written : ∀ key value, sent key value → t.HasRoomFor key → t'.read key = value
  kept : ∀ key, (∀ value, ¬ sent key value) → t'.read key = t.read key
  /-- nil is not stored under a name, unless it was stored there from the first -/
  entry : ∀ s, (∃ value, sent (.name s) value) ∨ t.hash.get? s ≠ some .nil →
    t'.hash.get? s ≠ some .nil
  length : t'.length = t.length ∨ t'.length = t.length + 1
  longer : t'.length = t.length + 1 ↔ ∃ value, sent (.index (t.length + 1)) value
  metatable : t'.metatable = t.metatable

section

variable {sent : TableKey → Value → Prop}

theorem takes_self (h : ∀ key value, sent key value → ¬ t.HasRoomFor key) : t.Takes t sent where
  written key value hsent hroom := absurd hroom (h key value hsent)
  kept _ _ := rfl
  entry s hs := by
    rcases hs with ⟨value, hsent⟩ | hs
    · exact absurd trivial (h _ value hsent)
    · exact hs
  length := .inl rfl
  longer := by
    refine ⟨fun hlength => absurd hlength (Nat.ne_of_lt (Nat.lt_succ_self _)), ?_⟩
    rintro ⟨value, hsent⟩
    exact absurd ⟨Nat.le_add_left 1 _, Nat.le_refl _⟩ (h _ value hsent)
  metatable := rfl

theorem IsWrite.takes (h : t.IsWrite t' key value)
    (hsent : ∀ other v, sent other v ↔ other = key ∧ v = value) : t.Takes t' sent where
  written other v hother _ := by
    obtain ⟨rfl, rfl⟩ := (hsent other v).1 hother
    rw [h.read, if_pos rfl]
  kept other hother := by
    rw [h.read, if_neg]
    rintro rfl
    exact hother value ((hsent other value).2 ⟨rfl, rfl⟩)
  entry s hs := by
    rw [h.entry]
    split
    · split
      · nofun
      · rename_i hnil
        intro heq
        rw [Option.some.inj heq] at hnil
        exact hnil rfl
    · rename_i hkey
      rcases hs with ⟨v, hother⟩ | hs
      · exact absurd ((hsent _ v).1 hother).1.symm hkey
      · exact hs
  length := by
    rw [h.length]
    split
    · exact .inr rfl
    · exact .inl rfl
  longer := by
    rw [h.length]
    constructor
    · intro hlength
      split at hlength
      · rename_i hkey
        exact ⟨value, (hsent _ value).2 ⟨hkey.symm, rfl⟩⟩
      · omega
    · rintro ⟨v, hother⟩
      rw [if_pos ((hsent _ v).1 hother).1.symm]
  metatable := h.metatable

end

end Table

/-! ### Assignments -/

/-- A value that is to stand under a key of a table. -/
structure Assignment where
  table : TableId
  key : TableKey
  value : Value

def Assignment.of? (object key value : Value) : Option Assignment :=
  match object with
  | .table id => key.asKey?.map (⟨id, ·, value⟩)
  | _ => none

namespace World

variable {w w' : World} {a : Assignment}

def assign? (w : World) (a : Assignment) : Option World :=
  ((w.table a.table).write? a.key a.value).map (w.setTable a.table)

theorem toOption_setField (w : World) (object key value : Value) :
    (w.setField object key value).toOption = (Assignment.of? object key value).bind w.assign? := by
  cases object with
  | table id =>
    cases key with
    | string s => rfl
    | number x =>
      simp only [setField, Assignment.of?, Value.asKey?]
      cases arrayIndex? x with
      | none => rfl
      | some n =>
        change _ = w.setIndex? id n value
        dsimp only
        cases w.setIndex? id n value <;> rfl
    | nil | bool | table | function => rfl
  | nil | bool | number | string | function => rfl

theorem assign?_eq_some (h : w.assign? a = some w') :
    ∃ t', (w.table a.table).IsWrite t' a.key a.value ∧ w' = w.setTable a.table t' := by
  obtain ⟨t', ht, rfl⟩ := Option.map_eq_some_iff.1 h
  exact ⟨t', Table.isWrite_of_write? ht, rfl⟩

theorem isSome_assign?_iff :
    (w.assign? a).isSome = true ↔ (w.table a.table).HasRoomFor a.key := by
  unfold assign?
  rw [Option.isSome_map, Table.isSome_write?_iff]

end World

/-! ### Writes -/

/-- A write to a table. An instruction is executed by some machine in the world that it finds. -/
inductive TableWrite where
  | rawName (id : TableId) (s : String) (value : Value)
  | rawIndex (id : TableId) (n : Nat) (value : Value)
  | setField (m : Machine) (chunk : Chunk) (base pc : Nat) (i : Instruction)
  | setIndex (m : Machine) (chunk : Chunk) (base pc : Nat) (i : Instruction)

def Step.worldAfter : Step → World × Bool
  | .next m => (m.world, true)
  | .done m _ | .failed m _ | .stuck m => (m.world, false)

namespace TableWrite

variable {host : Host} {e : Nat} {w : World} {id : TableId} {write : TableWrite}

/-- The assignment that a write comes to, if it means a key of a table at all. -/
def assignment? : TableWrite → Option Assignment
  | rawName id s value => some ⟨id, .name s, value⟩
  | rawIndex id n value => some ⟨id, .index n, value⟩
  | setField m chunk base _ i =>
    match Machine.constantName chunk i.b with
    | .ok s => Assignment.of? (m.read (base + i.a)) (.string s) (m.read (base + i.c))
    | .error _ => none
  | setIndex m _ base _ i =>
    Assignment.of? (m.read (base + i.a)) (m.read (base + i.b)) (m.read (base + i.c))

def perform (host : Host) (e : Nat) (w : World) : TableWrite → World × Bool
  | rawName id s value => (w.setString id s value, true)
  | rawIndex id n value =>
    match w.setIndex? id n value with
    | some w' => (w', true)
    | none => (w, false)
  | setField m chunk base pc i =>
    (({ m with world := w } : Machine).execute host e chunk base pc i .setField).worldAfter
  | setIndex m chunk base pc i =>
    (({ m with world := w } : Machine).execute host e chunk base pc i .setIndex).worldAfter

theorem worldAfter_update (m : Machine) (result : Except RuntimeError World) :
    (m.update result).worldAfter =
      match result.toOption with
      | some w => (w, true)
      | none => (m.world, false) := by
  cases result <;> rfl

theorem perform_eq (host : Host) (e : Nat) (w : World) (write : TableWrite) :
    write.perform host e w =
      match write.assignment?.bind w.assign? with
      | some w' => (w', true)
      | none => (w, false) := by
  cases write with
  | rawName => rfl
  | rawIndex => rfl
  | setField m chunk base pc i =>
    simp only [perform, Machine.execute, worldAfter_update, assignment?]
    cases Machine.constantName chunk i.b with
    | error => rfl
    | ok s =>
      rw [← World.toOption_setField]
      rfl
  | setIndex m chunk base pc i =>
    simp only [perform, Machine.execute, worldAfter_update, assignment?, World.toOption_setField]
    rfl

inductive Ends (w : World) (write : TableWrite) : World × Bool → Prop where
  | written {a : Assignment} {t' : Table} (ha : write.assignment? = some a)
      (hroom : (w.table a.table).HasRoomFor a.key)
      (ht : (w.table a.table).IsWrite t' a.key a.value) :
      Ends w write (w.setTable a.table t', true)
  | refused (h : ∀ a, write.assignment? = some a → ¬ (w.table a.table).HasRoomFor a.key) :
      Ends w write (w, false)

theorem ends_perform (host : Host) (e : Nat) (w : World) (write : TableWrite) :
    Ends w write (write.perform host e w) := by
  rw [perform_eq]
  cases ha : write.assignment? with
  | none => exact .refused fun a h => nomatch ha.symm.trans h
  | some a =>
    dsimp only [Option.bind_some]
    cases hw : w.assign? a with
    | none =>
      refine .refused fun a' ha' hroom => ?_
      obtain rfl := Option.some.inj (ha.symm.trans ha')
      rw [← World.isSome_assign?_iff, hw] at hroom
      cases hroom
    | some w' =>
      have hroom : (w.table a.table).HasRoomFor a.key := by
        rw [← World.isSome_assign?_iff, hw]
        rfl
      obtain ⟨t', ht, rfl⟩ := World.assign?_eq_some hw
      exact .written ha hroom ht

/-- A write means to put `value` under `key` of table `id`. -/
def Sends (write : TableWrite) (id : TableId) (key : TableKey) (value : Value) : Prop :=
  write.assignment? = some ⟨id, key, value⟩

/-- What a write that ends with `result` does to table `id` as a map, and beside it. -/
structure ActsOnMap (w : World) (id : TableId) (write : TableWrite) (result : World × Bool) :
    Prop where
  succeeds : result.2 = true ↔
    ∃ table key value, write.Sends table key value ∧ (w.table table).HasRoomFor key
  refused : result.2 = false → result.1 = w
  table : (w.table id).Takes (result.1.table id) (write.Sends id)
  others : ∀ other, (∀ key value, ¬ write.Sends other key value) →
    result.1.table other = w.table other
  world : result.1 = { w with tables := result.1.tables } ∧
    result.1.tables.size = w.tables.size

theorem actsOnMap (host : Host) (e : Nat) (hid : id < w.tables.size) (write : TableWrite) :
    write.ActsOnMap w id (write.perform host e w) := by
  have hends := write.ends_perform host e w
  generalize write.perform host e w = result at hends
  cases hends with
  | refused h => exact
    { succeeds := ⟨nofun, fun ⟨_, _, _, hsends, hroom⟩ => absurd hroom (h _ hsends)⟩
      refused := fun _ => rfl
      table := Table.takes_self fun _ _ hsends => h _ hsends
      others := fun _ _ => rfl
      world := ⟨rfl, rfl⟩ }
  | @written a t' ha hroom ht =>
    -- the write is for table `id` or for another one, and then `id` is sent nothing
    have hsends (id' key value) : write.Sends id' key value ↔
        id' = a.table ∧ key = a.key ∧ value = a.value := by
      unfold Sends
      rw [ha]
      cases a
      simp [eq_comm]
    refine ⟨⟨fun _ => ⟨_, _, _, ha, hroom⟩, fun _ => rfl⟩, nofun, ?_, ?_,
      ⟨rfl, Array.size_setIfInBounds⟩⟩
    · by_cases hsame : id = a.table
      · subst hsame
        rw [World.table_setTable_self hid]
        refine ht.takes fun key value => ?_
        rw [hsends]
        simp
      · rw [World.table_setTable_of_ne hsame]
        refine Table.takes_self fun key value h => ?_
        exact absurd ((hsends _ _ _).1 h).1 hsame
    · intro other hother
      refine World.table_setTable_of_ne (fun heq => ?_) t'
      exact hother a.key a.value ((hsends _ _ _).2 ⟨heq, rfl, rfl⟩)

/-! ### Runs -/

def performAll (host : Host) (e : Nat) (w : World) : List TableWrite → World
  | [] => w
  | write :: writes => performAll host e (write.perform host e w).1 writes

def successes (host : Host) (e : Nat) (w : World) : List TableWrite → List Assignment
  | [] => []
  | write :: writes =>
    (if (write.perform host e w).2 then write.assignment?.toList else []) ++
      successes host e (write.perform host e w).1 writes

/-- What stands under a key after some assignments: the value that was assigned to it last, or
what stood there at first. -/
def lastValue (id : TableId) (key : TableKey) (first : Value) (as : List Assignment) : Value :=
  as.foldl (fun last a => if a.table = id ∧ a.key = key then a.value else last) first

theorem lastValue_append (id : TableId) (key : TableKey) (first : Value) (as bs : List Assignment) :
    lastValue id key first (as ++ bs) = lastValue id key (lastValue id key first as) bs :=
  List.foldl_append

/-- A write changes what is read as its assignment says, if it succeeds. -/
theorem read_perform (host : Host) (e : Nat) (hid : id < w.tables.size) (write : TableWrite)
    (key : TableKey) :
    ((write.perform host e w).1.table id).read key =
      lastValue id key ((w.table id).read key)
        (if (write.perform host e w).2 then write.assignment?.toList else []) := by
  have hacts := write.actsOnMap host e hid
  cases hsuccess : (write.perform host e w).2 with
  | false =>
    rw [hacts.refused hsuccess]
    rfl
  | true =>
    obtain ⟨table, key', value, hsends, hroom⟩ := hacts.succeeds.1 hsuccess
    rw [if_pos rfl, hsends]
    change _ = if table = id ∧ key' = key then value else _
    split
    · rename_i heq
      obtain ⟨rfl, rfl⟩ := heq
      exact hacts.table.written key' value hsends hroom
    · rename_i hne
      refine hacts.table.kept key fun v hv => hne ?_
      cases hsends.symm.trans hv
      exact ⟨rfl, rfl⟩

theorem lastValue_name (host : Host) (e : Nat) (hid : id < w.tables.size) (write : TableWrite)
    (s : String) (first : Value) :
    lastValue id (.name s) first
        (if (write.perform host e w).2 then write.assignment?.toList else []) =
      lastValue id (.name s) first write.assignment?.toList := by
  have hacts := write.actsOnMap host e hid
  split
  · rfl
  · rename_i hrefused
    cases ha : write.assignment? with
    | none => rfl
    | some a =>
      refine (if_neg ?_).symm
      rintro ⟨-, hkey⟩
      refine hrefused (hacts.succeeds.2 ⟨a.table, a.key, a.value, ha, ?_⟩)
      rw [hkey]
      trivial

section

variable (host : Host) (e : Nat) (writes : List TableWrite) (hid : id < w.tables.size)
include hid

theorem lt_size_perform (write : TableWrite) : id < (write.perform host e w).1.tables.size :=
  (write.actsOnMap host e hid).world.2 ▸ hid

theorem lt_size_performAll : id < (performAll host e w writes).tables.size := by
  induction writes generalizing w with
  | nil => exact hid
  | cons write writes ih => exact ih (lt_size_perform host e hid write)

theorem read_performAll (key : TableKey) :
    ((performAll host e w writes).table id).read key =
      lastValue id key ((w.table id).read key) (successes host e w writes) := by
  induction writes generalizing w with
  | nil => rfl
  | cons write writes ih =>
    rw [performAll, successes, lastValue_append, ← read_perform host e hid]
    exact ih (lt_size_perform host e hid write)

theorem lastValue_successes (s : String) (first : Value) :
    lastValue id (.name s) first (successes host e w writes) =
      lastValue id (.name s) first (writes.filterMap assignment?) := by
  induction writes generalizing w first with
  | nil => rfl
  | cons write writes ih =>
    rw [successes, lastValue_append, lastValue_name host e hid,
      ih (lt_size_perform host e hid write), ← lastValue_append]
    cases ha : write.assignment? <;> simp [ha]

theorem entry_performAll (s : String)
    (h : (∃ write ∈ writes, ∃ value, write.Sends id (.name s) value) ∨
      (w.table id).hash.get? s ≠ some .nil) :
    ((performAll host e w writes).table id).hash.get? s ≠ some .nil := by
  induction writes generalizing w with
  | nil =>
    rcases h with ⟨sent, hmem, -⟩ | h
    · cases hmem
    · exact h
  | cons write writes ih =>
    have hentry := (write.actsOnMap host e hid).table.entry s
    refine ih (lt_size_perform host e hid write) ?_
    rcases h with ⟨sent, hmem, hsends⟩ | h
    · rcases List.mem_cons.1 hmem with rfl | hmem
      · exact .inr (hentry (.inl hsends))
      · exact .inl ⟨sent, hmem, hsends⟩
    · exact .inr (hentry (.inr h))

theorem length_performAll :
    (w.table id).length ≤ ((performAll host e w writes).table id).length ∧
      ((performAll host e w writes).table id).metatable = (w.table id).metatable := by
  induction writes generalizing w with
  | nil => exact ⟨Nat.le_refl _, rfl⟩
  | cons write writes ih =>
    have htable := (write.actsOnMap host e hid).table
    obtain ⟨hlength, hmetatable⟩ := ih (lt_size_perform host e hid write)
    refine ⟨Nat.le_trans ?_ hlength, hmetatable.trans htable.metatable⟩
    rcases htable.length with h | h <;> omega

end

end TableWrite

open TableWrite

/-- **A table is a map with a dense array part.** Whatever is written to the tables of a world, in
table `id` a name has the value that was assigned to it last, and nil leaves no entry behind; an
index has the value of the last write to it that succeeded; the array part is not shorter than
before, and the metatable is the same. Then the next write succeeds exactly if there is room for
it, and changes nothing else than the value under its key and the length, if it goes to the place
behind the end. -/
theorem World.tables_are_maps (host : Host) (e : Nat) (w : World) (writes : List TableWrite)
    {id : TableId} (hid : id < w.tables.size) :
    let after := performAll host e w writes
    (∀ s, (after.table id).getString s =
      lastValue id (.name s) ((w.table id).getString s) (writes.filterMap assignment?)) ∧
    (∀ s, (∃ write ∈ writes, ∃ value, write.Sends id (.name s) value) →
      (after.table id).hash.get? s ≠ some .nil) ∧
    (∀ n, (after.table id).getIndex n =
      lastValue id (.index n) ((w.table id).getIndex n) (successes host e w writes)) ∧
    (w.table id).length ≤ (after.table id).length ∧
    (after.table id).metatable = (w.table id).metatable ∧
    ∀ write : TableWrite, write.ActsOnMap after id (write.perform host e after) := by
  have hread := read_performAll host e writes hid
  obtain ⟨hlength, hmetatable⟩ := length_performAll host e writes hid
  refine ⟨fun s => ?_, fun s hs => ?_, fun n => hread (.index n), hlength, hmetatable,
    fun write => write.actsOnMap host e (lt_size_performAll host e writes hid)⟩
  · rw [← lastValue_successes host e writes hid]
    exact hread (.name s)
  · exact entry_performAll host e writes hid s (.inl hs)

/-- A new table takes a value at its first index and refuses one at the third. An instruction puts
nil under a name, where there was a value. -/
theorem World.new_table_is_map :
    let host : Host := fun _ _ w => (.ok .nil, w)
    let w := (World.empty.newTable .empty).1
    let m := (Machine.idle 1).writeAll 0 [.table 1, .string "x", .nil]
    let writes : List TableWrite := [.rawIndex 1 1 (.bool true), .rawIndex 1 3 (.bool true),
      .rawName 1 "x" (.bool true), .setIndex m default 0 0 (.abc .setIndex 0 1 2)]
    1 < w.tables.size ∧ ((performAll host 0 w writes).table 1).getString "x" = .nil ∧
      ((performAll host 0 w writes).table 1).hash.get? "x" ≠ some .nil ∧
      ((performAll host 0 w writes).table 1).getIndex 1 = .bool true ∧
      ((performAll host 0 w writes).table 1).getIndex 3 = .nil := by
  intro host w m writes
  obtain ⟨hname, hentry, hindex, -⟩ :=
    World.tables_are_maps host 0 w writes (show 1 < w.tables.size by decide)
  have hsent := hentry "x" ⟨.rawName 1 "x" (.bool true), List.mem_of_getElem? (i := 2) rfl, _, rfl⟩
  exact ⟨by decide, (hname "x").trans rfl, hsent, (hindex 1).trans rfl, (hindex 3).trans rfl⟩

end RegisterMachine
