import Mathlib
import RegisterMachine.Machine.Step
import RegisterMachine.Proofs.BuiltChunks

/-!
# The pool of constants

A builder gives out an index for each constant, and an index that was given out once keeps its
meaning (`ChunkBuilder.Extends`). The pool holds no two equal entries (`ChunkBuilder.IsDistinct`):
a constant that equals an entry shares it.

Shared entries are the same constants, with one exception (`Constant.sameAs_iff`). The zeros equal
each other, and so the one that comes second is loaded with the sign of the first
(`ChunkBuilder.zeros_share_entry`). A NaN equals nothing and always gets an entry of its own.

All of Mathlib is imported for `Float.beq_iff_ne_nan_and_eq`, which no smaller module hands on.
-/

namespace RegisterMachine

/-! ### Equal constants -/

namespace Constant

def AreZeros (c c' : Constant) : Prop :=
  (c = .number 0 ∧ c' = .number (-0)) ∨ (c = .number (-0) ∧ c' = .number 0)

theorem AreZeros.symm {c c' : Constant} (h : c.AreZeros c') : c'.AreZeros c := by
  rcases h with ⟨hc, hc'⟩ | ⟨hc, hc'⟩
  · exact .inr ⟨hc', hc⟩
  · exact .inl ⟨hc', hc⟩

theorem sameAs_iff {c c' : Constant} :
    c.sameAs c' = true ↔ (c = c' ∧ c ≠ .number Float.nan) ∨ c.AreZeros c' := by
  cases c with
  | number x =>
    cases c' with
    | number y =>
      have hzero : (0 : Float) ≠ Float.nan := by decide
      have hnegative : (-0 : Float) ≠ Float.nan := by decide
      simp only [sameAs, Float.beq_iff_ne_nan_and_eq, AreZeros, number.injEq]
      constructor
      · rintro ⟨hx, -, rfl | hzeros⟩
        · exact .inl ⟨rfl, fun h => hx (number.inj h)⟩
        · exact .inr hzeros
      · rintro (⟨rfl, hx⟩ | ⟨rfl, rfl⟩ | ⟨rfl, rfl⟩)
        · exact ⟨fun h => hx (h ▸ rfl), fun h => hx (h ▸ rfl), .inl rfl⟩
        · exact ⟨hzero, hnegative, .inr (.inl ⟨rfl, rfl⟩)⟩
        · exact ⟨hnegative, hzero, .inr (.inr ⟨rfl, rfl⟩)⟩
    | nil | bool | string => simp [sameAs, AreZeros]
  | nil | bool | string => cases c' <;> simp [sameAs, AreZeros]

theorem sameAs_comm (c c' : Constant) : c.sameAs c' = c'.sameAs c := by
  have hsymm {c c' : Constant} (h : c.sameAs c' = true) : c'.sameAs c = true := by
    rcases sameAs_iff.1 h with ⟨rfl, hnumber⟩ | hzeros
    · exact sameAs_iff.2 (.inl ⟨rfl, hnumber⟩)
    · exact sameAs_iff.2 (.inr hzeros.symm)
  exact Bool.eq_iff_iff.2 ⟨hsymm, hsymm⟩

end Constant

namespace ChunkBuilder

variable {b b' : ChunkBuilder} {c : Constant}

/-! ### One constant -/

/-- What adding a constant comes to: an entry that equals it is shared, or it gets a new one. -/
inductive Adds (b : ChunkBuilder) (c : Constant) : ChunkBuilder → Nat → Prop
  | shared {index : Nat} {entry : Constant} (hentry : b.constants[index]? = some entry)
      (hsame : entry.sameAs c = true) : Adds b c b index
  | fresh (hnone : ∀ entry ∈ b.constants, entry.sameAs c = false) :
    Adds b c { b with constants := b.constants.push c } b.constants.size

theorem addConstant_adds (b : ChunkBuilder) (c : Constant) :
    b.Adds c (b.addConstant c).1 (b.addConstant c).2 := by
  unfold addConstant
  split
  · rename_i index h
    obtain ⟨hlt, hsame, -⟩ := Array.findIdx?_eq_some_iff_getElem.1 h
    exact .shared (Array.getElem?_eq_getElem hlt) hsame
  · rename_i h
    exact .fresh (Array.findIdx?_eq_none_iff.1 h)

/-! ### The pool along the steps -/

def IsDistinct (b : ChunkBuilder) : Prop :=
  ∀ (i j : Nat) (entry entry' : Constant), i ≠ j → b.constants[i]? = some entry →
    b.constants[j]? = some entry' → entry.sameAs entry' = false

/-- Each index of the pool of `b` means the same in that of `b'`. -/
def Extends (b' b : ChunkBuilder) : Prop :=
  ∀ (i : Nat) (entry : Constant), b.constants[i]? = some entry → b'.constants[i]? = some entry

theorem Adds.extends {index : Nat} (h : b.Adds c b' index) : b'.Extends b := by
  intro i entry hi
  cases h with
  | shared => exact hi
  | fresh =>
    have hlt := (Array.getElem?_eq_some_iff.1 hi).1
    rw [Array.getElem?_push_lt hlt, ← Array.getElem?_eq_getElem hlt]
    exact hi

theorem Adds.isDistinct {index : Nat} (h : b.Adds c b' index) (hb : b.IsDistinct) :
    b'.IsDistinct := by
  cases h with
  | shared => exact hb
  | fresh hnone =>
    intro i j entry entry' hne hi hj
    rw [Array.getElem?_push] at hi hj
    split at hi
    · split at hj
      · omega
      · obtain rfl := Option.some.inj hi
        rw [Constant.sameAs_comm]
        exact hnone entry' (Array.mem_of_getElem? hj)
    · split at hj
      · obtain rfl := Option.some.inj hj
        exact hnone entry (Array.mem_of_getElem? hi)
      · exact hb i j entry entry' hne hi hj

theorem take?_constants {step : BuildStep} (h : b.take? step = some b') :
    b'.constants = b.constants ∨ ∃ c, b' = (b.addConstant c).1 := by
  cases step with
  | parameters | vararg | emit | op | addFunction =>
    obtain rfl := Option.some.inj h
    exact .inl rfl
  | addConstant c =>
    obtain rfl := Option.some.inj h
    exact .inr ⟨c, rfl⟩
  | patchJump jumpPc target =>
    simp only [take?, patchJump?] at h
    split at h
    · obtain rfl := Option.some.inj h
      exact .inl rfl
    · cases h

theorem extends_of_takeAll? {steps : List BuildStep} (h : b.takeAll? steps = some b') :
    b'.Extends b := by
  refine takeAll?_induction (I := fun k => k.Extends b) (fun k k' step hk hstep => ?_)
    (fun _ _ hi => hi) h
  intro i entry hi
  rcases take?_constants hstep with heq | ⟨c, rfl⟩
  · rw [heq]
    exact hk i entry hi
  · exact (k.addConstant_adds c).extends i entry (hk i entry hi)

theorem isDistinct_of_takeAll? {steps : List BuildStep} (hb : b.IsDistinct)
    (h : b.takeAll? steps = some b') : b'.IsDistinct := by
  refine takeAll?_induction (fun k k' step hk hstep => ?_) hb h
  rcases take?_constants hstep with heq | ⟨c, rfl⟩
  · unfold IsDistinct
    rw [heq]
    exact hk
  · exact (k.addConstant_adds c).isDistinct hk

theorem isDistinct_new (name : String) : (new name).IsDistinct := by
  intro i j entry entry' _ hi
  cases hi

/-! ### What is loaded -/

/-- **Constants are loaded as they were added.** Whatever is done with a builder before and after,
the index that is given out for a constant refers, in the chunk that is built in the end, to that
constant, with all its bits: the value is loaded from there, and a string is found there as a name.
The one exception is a zero that comes after a zero of the other sign; that one is loaded then. No
index changes its meaning later, and no two entries are equal. (There is just one NaN here.) -/
theorem added_constants_load (name : String) (before after : List BuildStep) (c : Constant)
    {b built : ChunkBuilder} (hbefore : (new name).takeAll? before = some b)
    (hafter : (b.addConstant c).1.takeAll? after = some built) :
    (∃ entry, built.build.constants[(b.addConstant c).2]? = some entry ∧
      (entry = c ∨ entry.AreZeros c ∧ b.constants[(b.addConstant c).2]? = some entry) ∧
      Machine.constant built.build (b.addConstant c).2 = .ok (.ofConstant entry) ∧
      ∀ s, c = .string s → Machine.constantName built.build (b.addConstant c).2 = .ok s) ∧
    built.Extends b ∧ built.Extends (b.addConstant c).1 ∧ built.IsDistinct := by
  have hadds := b.addConstant_adds c
  have hextends := extends_of_takeAll? hafter
  have hdistinct := hadds.isDistinct (isDistinct_of_takeAll? (isDistinct_new name) hbefore)
  refine ⟨?_, fun i entry hi => hextends i entry (hadds.extends i entry hi), hextends,
    isDistinct_of_takeAll? hdistinct hafter⟩
  have hentry : ∃ entry, (b.addConstant c).1.constants[(b.addConstant c).2]? = some entry ∧
      (entry = c ∨ entry.AreZeros c ∧ b.constants[(b.addConstant c).2]? = some entry) := by
    generalize (b.addConstant c).1 = next, (b.addConstant c).2 = index at hadds
    cases hadds with
    | @shared index entry hi hsame =>
      rcases Constant.sameAs_iff.1 hsame with ⟨heq, -⟩ | hzeros
      · exact ⟨entry, hi, .inl heq⟩
      · exact ⟨entry, hi, .inr ⟨hzeros, hi⟩⟩
    | fresh => exact ⟨c, Array.getElem?_push_size, .inl rfl⟩
  obtain ⟨entry, hi, hc⟩ := hentry
  have hbuilt : built.build.constants[(b.addConstant c).2]? = some entry := hextends _ _ hi
  refine ⟨entry, hbuilt, hc, ?_, ?_⟩
  · simp only [Machine.constant, hbuilt]
  · rintro s rfl
    rcases hc with rfl | ⟨⟨-, hs⟩ | ⟨-, hs⟩, -⟩
    · simp only [Machine.constantName, hbuilt]
      rfl
    · cases hs
    · cases hs

/-- A name is added again between a zero and two NaNs, and shares its entry. -/
theorem sharing_loads :
    ∃ b built, (new "sharing").takeAll? [.addConstant (.string "x"), .addConstant (.number 0)] =
        some b ∧
      (b.addConstant (.string "x")).1.takeAll?
        [.addConstant (.number (0 / 0)), .vararg, .addConstant (.number (0 / 0))] = some built ∧
      (b.addConstant (.string "x")).2 = 0 ∧ built.constants.size = 4 ∧
      Machine.constantName built.build (b.addConstant (.string "x")).2 = .ok "x" ∧
      built.IsDistinct := by
  have hload := added_constants_load "sharing"
    [.addConstant (.string "x"), .addConstant (.number 0)]
    [.addConstant (.number (0 / 0)), .vararg, .addConstant (.number (0 / 0))] (.string "x") rfl rfl
  obtain ⟨⟨entry, -, -, -, hname⟩, -, -, hdistinct⟩ := hload
  exact ⟨_, _, rfl, rfl, by decide +kernel, by decide +kernel, hname "x" rfl, hdistinct⟩

/-- A negative zero that comes after a zero is loaded as that zero, whose bits are others. An entry
of its own would equal the one that is there. -/
theorem zeros_share_entry :
    ∃ b built, (new "zeros").takeAll? [.addConstant (.number 0)] = some b ∧
      (b.addConstant (.number (-0))).1.takeAll? [] = some built ∧
      Machine.constant built.build (b.addConstant (.number (-0))).2 = .ok (.number 0) ∧
      (-0 : Float).toBits ≠ (0 : Float).toBits ∧ Binary64.isNaN (-0) = false ∧
      (Constant.number (-0)).sameAs (.number 0) = true := by
  have hequal : ((0 : Float) == -0) = true := rfl
  refine ⟨_, _, rfl, rfl, ?_, by decide, by decide, by decide⟩
  simp [addConstant, new, build, Machine.constant, Constant.sameAs, Value.ofConstant, hequal]

end ChunkBuilder

end RegisterMachine
