import RegisterMachine.Proofs.Observation

/-!
# Reads along the chain of `__index` tables

An indexed read looks for an entry in a value, then in the table under `__index` in the metatable of
the value, then in the table under `__index` for that table, and so on. These values are the chain
of the read (`World.Along`). It may be infinite, as metatables may refer to each other or to
themselves, but only its first 100 values are looked at.

The read finds the first entry of these (`getFieldIn_eq_ok_iff`), and it fails only at its start,
when there is neither a table to look at nor one to go on to (`getFieldIn_eq_error_iff`). Nothing
but tables links a chain: a function under `__index` ends it as if there were nothing.
-/

namespace RegisterMachine

namespace World

/-! ### Entries and links -/

/-- The table `id` holds the value under the key, which is not nil: under a string in the hash part,
under a whole number from one on in the array part. The indices of the host end at `2^64 - 1`, and
the number `2^64` is taken for the last of them. -/
inductive Entry (w : World) (id : TableId) : Value → Value → Prop
  | string {name : String} {v : Value} (h : (w.table id).getString name = v) (hv : v ≠ .nil) :
      Entry w id (.string name) v
  | index {x : Float} {n : Nat} {v : Value} (hx : Binary64.positive? x = some n)
      (hn : n ≤ UInt64.size) (h : (w.table id).getIndex (min n (UInt64.size - 1)) = v)
      (hv : v ≠ .nil) : Entry w id (.number x) v

/-- The metatable of the value holds the table `next` under `__index`. -/
def Links (w : World) (v : Value) (next : TableId) : Prop :=
  ∃ id, w.metatable? v = some id ∧ (w.table id).getString "__index" = .table next

/-- The values of the chain that starts at `object`. -/
inductive Along (w : World) (object : Value) : Nat → Value → Prop
  | start : Along w object 0 object
  | link {i : Nat} {v : Value} {next : TableId} (h : Along w object i v) (hlink : w.Links v next) :
      Along w object (i + 1) (.table next)

/-- The value number `i` of the chain is a table that holds the value under the key, and no table
before it in the chain has an entry under the key. -/
structure FirstEntry (w : World) (object key : Value) (i : Nat) (v : Value) : Prop where
  entry : ∃ id, w.Along object i (.table id) ∧ w.Entry id key v
  first : ∀ j < i, ∀ id, w.Along object j (.table id) → ∀ v', ¬ w.Entry id key v'

/-- There is neither a table to look at nor one to go on to. -/
structure Unindexable (w : World) (object : Value) : Prop where
  noTable : ∀ id, object ≠ .table id
  noLink : ∀ next, ¬ w.Links object next

variable {w : World} {object key v : Value} {id next : TableId} {i : Nat}

theorem entry_iff : w.Entry id key v ↔ w.ownField (.table id) key = v ∧ v ≠ .nil := by
  constructor
  · rintro (⟨h, hv⟩ | ⟨hx, hn, h, hv⟩)
    · exact ⟨h, hv⟩
    · refine ⟨?_, hv⟩
      simp only [ownField, rawGet, arrayIndex?, hx, if_pos hn]
      exact h
  · rintro ⟨h, hv⟩
    cases key with
    | string name => exact .string h hv
    | number x =>
      simp only [ownField, rawGet, arrayIndex?] at h
      cases hx : Binary64.positive? x with
      | none =>
        rw [hx] at h
        exact absurd h.symm hv
      | some n =>
        rw [hx] at h
        dsimp only at h
        by_cases hn : n ≤ UInt64.size
        · rw [if_pos hn] at h
          exact .index hx hn h hv
        · rw [if_neg hn] at h
          exact absurd h.symm hv
    | nil | bool | table | function => exact absurd h.symm hv

/-- In an array that is shorter than that, a number addresses the index that it is. -/
theorem entry_number_iff (hfits : (w.table id).length < UInt64.size - 1) {x : Float} :
    w.Entry id (.number x) v ↔
      ∃ n, Binary64.positive? x = some n ∧ (w.table id).getIndex n = v ∧ v ≠ .nil := by
  have houtside (n : Nat) (hn : UInt64.size - 1 ≤ n) : (w.table id).getIndex n = .nil := by
    have hsize : ¬ n - 1 < (w.table id).array.size := by
      simp only [Table.length] at hfits
      omega
    simp [Table.getIndex, hsize]
  constructor
  · rintro (_ | ⟨hx, hn, h, hv⟩)
    have hlt := Nat.lt_of_not_le fun hle => hv (h.symm.trans (houtside _ hle))
    rw [Nat.min_def] at hlt h
    split at h
    · exact ⟨_, hx, h, hv⟩
    · rename_i hlarge
      rw [if_neg hlarge] at hlt
      exact absurd hlt (Nat.lt_irrefl _)
  · rintro ⟨n, hx, h, hv⟩
    have hlt : n < UInt64.size - 1 :=
      Nat.lt_of_not_le fun hle => hv (h.symm.trans (houtside n hle))
    refine .index hx (by omega) ?_ hv
    rwa [Nat.min_eq_left (Nat.le_of_lt hlt)]

theorem Entry.unique {v' : Value} (h : w.Entry id key v) (h' : w.Entry id key v') : v = v' :=
  (entry_iff.1 h).1.symm.trans (entry_iff.1 h').1

theorem metamethod?_index_iff :
    w.metamethod? object .index = some (.table next) ↔ w.Links object next := by
  have hname : Metamethod.index.name = "__index" := rfl
  unfold metamethod? Links
  cases w.metatable? object with
  | none => simp
  | some id =>
    rw [hname]
    dsimp only
    cases h : (w.table id).getString "__index" <;> simp [Value.isNil, h]

theorem Links.unique {next' : TableId} (h : w.Links object next) (h' : w.Links object next') :
    next = next' := by
  have := (metamethod?_index_iff.2 h).symm.trans (metamethod?_index_iff.2 h')
  exact Value.table.inj (Option.some.inj this)

/-! ### The chain -/

/-- The first link of a chain may be split off as well as the last. -/
theorem along_succ_iff : w.Along object (i + 1) v ↔
    ∃ next, w.Links object next ∧ w.Along (.table next) i v := by
  constructor
  · intro h
    induction i generalizing v with
    | zero =>
      cases h with
      | link h hlink =>
        cases h
        exact ⟨_, hlink, .start⟩
    | succ i ih =>
      cases h with
      | link h hlink =>
        obtain ⟨next, hfirst, hrest⟩ := ih h
        exact ⟨next, hfirst, hrest.link hlink⟩
  · rintro ⟨next, hlink, h⟩
    induction h with
    | start => exact .link .start hlink
    | link _ hlast ih => exact ih.link hlast

theorem along_zero_iff : w.Along object 0 v ↔ v = object := by
  constructor
  · rintro ⟨⟩
    rfl
  · rintro rfl
    exact .start

def HasNoEntry (w : World) (object key : Value) : Prop :=
  ∀ id, object = .table id → ∀ v, ¬ w.Entry id key v

theorem FirstEntry.of_entry (h : w.Entry id key v) : w.FirstEntry (.table id) key 0 v :=
  ⟨⟨id, .start, h⟩, nofun⟩

theorem FirstEntry.eq_of_entry {v' : Value} (h : w.FirstEntry (.table id) key i v')
    (hv : w.Entry id key v) : v' = v := by
  obtain ⟨⟨id', halong, hentry⟩, hfirst⟩ := h
  cases i with
  | zero =>
    obtain rfl := Value.table.inj (along_zero_iff.1 halong)
    exact hentry.unique hv
  | succ i => exact absurd hv (hfirst 0 (Nat.zero_lt_succ i) id .start v)

/-- If the object has no entry, then the first one of the chain is the first one of what is linked
to the object. -/
theorem firstEntry_succ_iff (hno : w.HasNoEntry object key) (hlink : w.Links object next) :
    w.FirstEntry object key (i + 1) v ↔ w.FirstEntry (.table next) key i v := by
  have hshift (j : Nat) (o : Value) : w.Along object (j + 1) o ↔ w.Along (.table next) j o := by
    rw [along_succ_iff]
    constructor
    · rintro ⟨next', hlink', h⟩
      rwa [hlink.unique hlink']
    · exact fun h => ⟨next, hlink, h⟩
  constructor
  · rintro ⟨⟨id, halong, hentry⟩, hfirst⟩
    refine ⟨⟨id, (hshift i _).1 halong, hentry⟩, fun j hj id' h => ?_⟩
    exact hfirst (j + 1) (Nat.succ_lt_succ hj) id' ((hshift j _).2 h)
  · rintro ⟨⟨id, halong, hentry⟩, hfirst⟩
    refine ⟨⟨id, (hshift i _).2 halong, hentry⟩, fun j hj id' h => ?_⟩
    cases j with
    | zero => exact hno id' (along_zero_iff.1 h).symm
    | succ j => exact hfirst j (Nat.lt_of_succ_lt_succ hj) id' ((hshift j _).1 h)

theorem FirstEntry.pos (h : w.FirstEntry object key i v) (hno : w.HasNoEntry object key) :
    ∃ j, i = j + 1 ∧ ∃ next, w.Links object next := by
  obtain ⟨⟨id, halong, hentry⟩, -⟩ := h
  cases i with
  | zero => exact absurd hentry (hno id (along_zero_iff.1 halong).symm v)
  | succ j =>
    obtain ⟨next, hlink, -⟩ := along_succ_iff.1 halong
    exact ⟨j, rfl, next, hlink⟩

/-- If there is an entry along the chain, then there is a first one, and not after it. -/
theorem exists_firstEntry (halong : w.Along object i (.table id)) (hentry : w.Entry id key v) :
    ∃ j ≤ i, ∃ v', w.FirstEntry object key j v' := by
  induction i using Nat.strongRecOn generalizing id v with
  | ind i ih =>
    by_cases hbefore : ∃ j < i, ∃ id', w.Along object j (.table id') ∧ ∃ v', w.Entry id' key v'
    · obtain ⟨j, hj, id', halong', v', hentry'⟩ := hbefore
      obtain ⟨k, hk, hfirst⟩ := ih j hj halong' hentry'
      exact ⟨k, Nat.le_trans hk (Nat.le_of_lt hj), hfirst⟩
    · refine ⟨i, Nat.le_refl i, v, ⟨id, halong, hentry⟩, fun j hj id' h v' h' => ?_⟩
      exact hbefore ⟨j, hj, id', h, v', h'⟩

/-! ### The read -/

variable {links : Nat}

theorem getFieldIn_of_entry (h : w.Entry id key v) :
    w.getFieldIn key (links + 1) (.table id) = .ok v := by
  obtain ⟨rfl, hv⟩ := entry_iff.1 h
  have hnil : ¬ (w.ownField (.table id) key).isNil = true := fun h => hv ((Value.isNil_iff _).1 h)
  simp [getFieldIn, hnil]

theorem HasNoEntry.isNil_ownField (hno : w.HasNoEntry object key) :
    (w.ownField object key).isNil = true := by
  rw [Value.isNil_iff]
  cases object with
  | table id => exact Classical.not_not.1 fun hne => hno id rfl _ (entry_iff.2 ⟨rfl, hne⟩)
  | nil | bool | number | string | function => rfl

theorem getFieldIn_of_links (hno : w.HasNoEntry object key) (hlink : w.Links object next) :
    w.getFieldIn key (links + 1) object = w.getFieldIn key links (.table next) := by
  simp [getFieldIn, hno.isNil_ownField, metamethod?_index_iff.2 hlink]

theorem getFieldIn_of_end (hno : w.HasNoEntry (.table id) key)
    (hend : ∀ next, ¬ w.Links (.table id) next) :
    w.getFieldIn key (links + 1) (.table id) = .ok .nil := by
  simp only [getFieldIn, hno.isNil_ownField]
  split
  · rename_i h
    cases h
  · split
    · rename_i next h
      exact absurd (metamethod?_index_iff.1 h) (hend next)
    · rfl

theorem Unindexable.hasNoEntry (h : w.Unindexable object) : w.HasNoEntry object key :=
  fun id hid => absurd hid (h.noTable id)

theorem getFieldIn_of_unindexable (h : w.Unindexable object) :
    w.getFieldIn key (links + 1) object = .error (.typeError "index" object.kind.name) := by
  simp only [getFieldIn, h.hasNoEntry.isNil_ownField]
  split
  · rename_i hnil
    cases hnil
  · split
    · rename_i next hlink
      exact absurd (metamethod?_index_iff.1 hlink) (h.noLink next)
    · cases object with
      | table id => exact absurd rfl (h.noTable id)
      | nil | bool | number | string | function => rfl

/-- What comes of a read at its first value, if `links` others may follow. -/
inductive ReadStep (w : World) (key : Value) (links : Nat) :
    Value → Except RuntimeError Value → Prop
  | found {id : TableId} {v : Value} (hentry : w.Entry id key v) :
      ReadStep w key links (.table id) (.ok v)
  | goesOn {object : Value} {next : TableId} (hno : w.HasNoEntry object key)
      (hlink : w.Links object next) :
      ReadStep w key links object (w.getFieldIn key links (.table next))
  | ends {id : TableId} (hno : w.HasNoEntry (.table id) key)
      (hend : ∀ next, ¬ w.Links (.table id) next) : ReadStep w key links (.table id) (.ok .nil)
  | fails {object : Value} (hobject : w.Unindexable object) :
      ReadStep w key links object (.error (.typeError "index" object.kind.name))

theorem readStep (w : World) (key : Value) (links : Nat) (object : Value) :
    w.ReadStep key links object (w.getFieldIn key (links + 1) object) := by
  by_cases hentry : ∃ id v, object = .table id ∧ w.Entry id key v
  · obtain ⟨id, v, rfl, hentry⟩ := hentry
    rw [getFieldIn_of_entry hentry]
    exact .found hentry
  · have hno : w.HasNoEntry object key := fun id hid v h => hentry ⟨id, v, hid, h⟩
    by_cases hlink : ∃ next, w.Links object next
    · obtain ⟨next, hlink⟩ := hlink
      rw [getFieldIn_of_links hno hlink]
      exact .goesOn hno hlink
    · have hend : ∀ next, ¬ w.Links object next := fun next h => hlink ⟨next, h⟩
      by_cases htable : ∃ id, object = .table id
      · obtain ⟨id, rfl⟩ := htable
        rw [getFieldIn_of_end hno hend]
        exact .ends hno hend
      · have hobject : w.Unindexable object := ⟨fun id hid => htable ⟨id, hid⟩, hend⟩
        rw [getFieldIn_of_unindexable hobject]
        exact .fails hobject

/-- **What a read finds** is the first entry along the chain. -/
theorem getFieldIn_eq_ok_iff (hv : v ≠ .nil) :
    w.getFieldIn key links object = .ok v ↔ ∃ i < links, w.FirstEntry object key i v := by
  induction links generalizing object with
  | zero =>
    constructor
    · intro h
      exact absurd (Except.ok.inj h).symm hv
    · rintro ⟨i, hi, -⟩
      exact absurd hi (Nat.not_lt_zero i)
  | succ links ih =>
    have hstep := w.readStep key links object
    generalize w.getFieldIn key (links + 1) object = result at hstep ⊢
    cases hstep with
    | found hentry =>
      constructor
      · intro h
        obtain rfl := Except.ok.inj h
        exact ⟨0, Nat.zero_lt_succ links, .of_entry hentry⟩
      · rintro ⟨i, -, h⟩
        rw [h.eq_of_entry hentry]
    | goesOn hno hlink =>
      rw [ih]
      constructor
      · rintro ⟨i, hi, h⟩
        exact ⟨i + 1, Nat.succ_lt_succ hi, (firstEntry_succ_iff hno hlink).2 h⟩
      · rintro ⟨i, hi, h⟩
        obtain ⟨j, rfl, -⟩ := h.pos hno
        exact ⟨j, Nat.lt_of_succ_lt_succ hi, (firstEntry_succ_iff hno hlink).1 h⟩
    | ends hno hend =>
      constructor
      · intro h
        exact absurd (Except.ok.inj h).symm hv
      · rintro ⟨i, -, h⟩
        obtain ⟨-, -, next, hlink⟩ := h.pos hno
        exact absurd hlink (hend next)
    | fails hobject =>
      constructor
      · intro h
        cases h
      · rintro ⟨i, -, h⟩
        obtain ⟨-, -, next, hlink⟩ := h.pos hobject.hasNoEntry
        exact absurd hlink (hobject.noLink next)

theorem getFieldIn_table_ne_error (e : RuntimeError) :
    w.getFieldIn key links (.table id) ≠ .error e := by
  induction links generalizing id with
  | zero => exact nofun
  | succ links ih =>
    have hstep := w.readStep key links (.table id)
    generalize w.getFieldIn key (links + 1) (.table id) = result at hstep ⊢
    cases hstep with
    | found | ends => exact nofun
    | goesOn => exact ih
    | fails hobject => exact absurd rfl (hobject.noTable id)

/-- **When a read fails.** -/
theorem getFieldIn_eq_error_iff {e : RuntimeError} :
    w.getFieldIn key (links + 1) object = .error e ↔
      w.Unindexable object ∧ e = .typeError "index" object.kind.name := by
  constructor
  · intro h
    have hstep := w.readStep key links object
    generalize w.getFieldIn key (links + 1) object = result at hstep h
    cases hstep with
    | found | ends => cases h
    | goesOn => exact absurd h (getFieldIn_table_ne_error e)
    | fails hobject => exact ⟨hobject, (Except.error.inj h).symm⟩
  · rintro ⟨hobject, rfl⟩
    exact getFieldIn_of_unindexable hobject

/-- **When a read gives nil.** -/
theorem getFieldIn_eq_nil_iff :
    w.getFieldIn key (links + 1) object = .ok .nil ↔
      ¬ w.Unindexable object ∧
        ∀ i < links + 1, ∀ id, w.Along object i (.table id) → ∀ v, ¬ w.Entry id key v := by
  cases hget : w.getFieldIn key (links + 1) object with
  | error e =>
    obtain ⟨hobject, -⟩ := getFieldIn_eq_error_iff.1 hget
    constructor
    · exact nofun
    · exact fun h => absurd hobject h.1
  | ok v =>
    constructor
    · intro h
      obtain rfl := Except.ok.inj h
      refine ⟨fun hobject => ?_, fun i hi id halong v hentry => ?_⟩
      · cases hget.symm.trans (getFieldIn_of_unindexable hobject)
      · obtain ⟨j, hj, v', hfirst⟩ := exists_firstEntry halong hentry
        obtain ⟨id', -, hentry'⟩ := hfirst.entry
        have hv' := (entry_iff.1 hentry').2
        have hfound := (getFieldIn_eq_ok_iff hv').2 ⟨j, Nat.lt_of_le_of_lt hj hi, hfirst⟩
        exact hv' (Except.ok.inj (hfound.symm.trans hget))
    · rintro ⟨-, hnone⟩
      refine congrArg _ (Classical.not_not.1 fun hv => ?_)
      obtain ⟨i, hi, ⟨id, halong, hentry⟩, -⟩ := (getFieldIn_eq_ok_iff hv).1 hget
      exact hnone i hi id halong v hentry

end World

/-! ### The instructions that read -/

theorem Machine.world_store (m : Machine) (slot : Nat) (value : Except RuntimeError Value) :
    (m.store slot value).machine.world = m.world := by
  cases value <;> rfl

namespace World

/-- **Indexed reads follow the chain.** A read gives the first entry under the key along the first
100 values of the chain, whatever metatables refer to what. It gives nil if there is no such entry,
unless it fails, which it does if the object is no table and its type has no table under `__index`,
and in no other case. The instructions that read leave the world as it is. -/
theorem getField_follows_chain (w : World) (object key : Value) :
    (∀ v, v ≠ .nil →
      (w.getField object key = .ok v ↔ ∃ i < 100, w.FirstEntry object key i v)) ∧
    (w.getField object key = .ok .nil ↔
      ¬ w.Unindexable object ∧
        ∀ i < 100, ∀ id, w.Along object i (.table id) → ∀ v, ¬ w.Entry id key v) ∧
    (∀ e, w.getField object key = .error e ↔
      w.Unindexable object ∧ e = .typeError "index" object.kind.name) ∧
    ∀ (host : Host) (e : Nat) (m : Machine) frame chunk i op,
      m.fetch = .instruction frame chunk i op → op = .getField ∨ op = .getIndex →
        (m.step host e).machine.world = m.world := by
  refine ⟨fun v hv => getFieldIn_eq_ok_iff hv, getFieldIn_eq_nil_iff,
    fun e => getFieldIn_eq_error_iff, fun host e m frame chunk i op hfetch hop => ?_⟩
  rw [Machine.step, hfetch]
  dsimp only
  rw [Step.machine_locate]
  rcases hop with rfl | rfl
  · exact (m.begin.world_store _ _).trans m.begin_world
  · exact (m.begin.world_store _ _).trans m.begin_world

/-- A table that is its own metatable, and is found there under `__index`, is a chain without an
end. -/
def looped : World :=
  { empty with tables := #[⟨#[], Dictionary.empty.insert "__index" (.table 0), some 0⟩] }

example : looped.getField (.table 0) (.string "missing") = .ok .nil := by rfl

end World

end RegisterMachine
