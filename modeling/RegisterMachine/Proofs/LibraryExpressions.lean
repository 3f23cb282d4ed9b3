import RegisterMachine.Proofs.ArgumentChecks

/-!
# Expressions over the libraries

What a function of the libraries gives can be an argument of another one, since it is a table with
just as many numbers as such an argument has to have, or a number
(`LibraryFunction.hasKind_of_run`). Nothing that there was before is changed on the way, so values
that fit go on to fit (`Parameter.Fits.mono`).

An expression is kinded if each of its parts is what the signature around it asks for. While a
kinded expression is evaluated, the only argument that can be unfit is a nil, which stands for an
inverse that there is none of.
-/

namespace RegisterMachine

/-! ### The kinds of results -/

inductive ResultKind where
  | scalar
  | vec3
  | vec4
  | mat4
  deriving DecidableEq, Repr, Inhabited

/-- A value is a table that a world gets, with a place of its own. Its array part has `n` elements,
all of them numbers, and it has nothing else. -/
def World.GetsNumbers (w : World) (n : Nat) (v : Value) (w' : World) : Prop :=
  ∃ values : Array Value, values.size = n ∧ (∀ x ∈ values, ∃ y, x = .number y) ∧
    v = .table w.tables.size ∧ w' = { w with tables := w.tables.push ⟨values, .empty, none⟩ }

namespace ResultKind

/-- A value has a kind, and making it took a world to another. -/
def IsOf (k : ResultKind) (w : World) (v : Value) (w' : World) : Prop :=
  match k with
  | scalar => (∃ x, v = .number x) ∧ w' = w
  | vec3 => w.GetsNumbers 3 v w'
  | vec4 => w.GetsNumbers 4 v w'
  | mat4 => w.GetsNumbers 16 v w'

theorem IsOf.place_eq {k : ResultKind} {w w' : World} {id : TableId} (h : k.IsOf w (.table id) w') :
    id = w.tables.size := by
  have hnumbers {n : Nat} (h : w.GetsNumbers n (.table id) w') : id = w.tables.size := by
    obtain ⟨values, -, -, hid, -⟩ := h
    exact Value.table.inj hid
  cases k with
  | scalar => exact absurd h.1 nofun
  | vec3 => exact hnumbers h
  | vec4 => exact hnumbers h
  | mat4 => exact hnumbers h

end ResultKind

namespace LibraryResult

def kind? : LibraryResult → Option ResultKind
  | scalar _ => some .scalar
  | vec3 _ => some .vec3
  | vec4 _ => some .vec4
  | mat4 _ => some .mat4
  | nothing => none

end LibraryResult

namespace LibraryFunction

def resultKind (f : LibraryFunction) : ResultKind :=
  match f with
  | vec3Dot | vec3Mag | vec3Mag2 | vec3Distance | vec4Dot | vec4Mag | vec4Mag2 => .scalar
  | f =>
    match f.library with
    | .vec3 => .vec3
    | .vec4 => .vec4
    | .mat4 => .mat4

theorem kind?_of_unlessRefused {refusal : Option Refusal} {result result' : LibraryResult}
    (h : unlessRefused refusal result = .ok result') : result'.kind? = result.kind? := by
  cases refusal with
  | none =>
    cases h
    rfl
  | some r => cases h

/-- What is computed has the kind of the function, unless there is no inverse. -/
theorem kind?_of_compute {f : LibraryFunction} {os : Operands f.signature} {result : LibraryResult}
    (h : f.compute os = .ok result) :
    result.kind? = some f.resultKind ∨ result = .nothing ∧ f = mat4Invert := by
  cases f with
  | mat4Perspective => exact .inl (kind?_of_unlessRefused h)
  | mat4PerspectiveOffCenter => exact .inl (kind?_of_unlessRefused h)
  | mat4PerspectiveFov => exact .inl (kind?_of_unlessRefused h)
  | mat4Mul =>
    obtain ⟨m, factor, _⟩ := os
    cases factor with
    | scalar s =>
      cases h
      exact .inl rfl
    | mat4 n =>
      cases h
      exact .inl rfl
  | mat4Invert =>
    obtain ⟨m, _⟩ := os
    rw [compute] at h
    cases hm : Mat4.inverse? m with
    | some n =>
      rw [hm] at h
      cases h
      exact .inl rfl
    | none =>
      rw [hm] at h
      cases h
      exact .inr ⟨rfl, rfl⟩
  | _ =>
    cases h
    exact .inl rfl

end LibraryFunction

namespace World

theorem getsNumbers_newNumbers (w : World) (elements : List Float32) :
    w.GetsNumbers elements.length (w.newNumbers elements).1 (w.newNumbers elements).2 := by
  refine ⟨(elements.map fun x => Value.number (Binary32.widen x)).toArray, by simp, ?_, rfl, rfl⟩
  intro x hx
  obtain ⟨y, -, hy⟩ := List.mem_map.1 (List.mem_toArray.1 hx)
  exact ⟨_, hy.symm⟩

theorem isOf_ofResult {result : LibraryResult} {k : ResultKind} (h : result.kind? = some k)
    (w : World) : k.IsOf w (w.ofResult result).1 (w.ofResult result).2 := by
  cases result with
  | scalar x =>
    cases h
    exact ⟨⟨_, rfl⟩, rfl⟩
  | vec3 v =>
    cases h
    exact w.getsNumbers_newNumbers v.toList
  | vec4 v =>
    cases h
    exact w.getsNumbers_newNumbers v.toList
  | mat4 m =>
    cases h
    exact w.getsNumbers_newNumbers m.toList
  | nothing => cases h

theorem GetsNumbers.holdsNumbers {w w' : World} {n : Nat} {v : Value} (h : w.GetsNumbers n v w') :
    w'.HoldsNumbers n v := by
  obtain ⟨values, hsize, hnumbers, rfl, rfl⟩ := h
  have htable : World.table { w with tables := w.tables.push ⟨values, .empty, none⟩ }
      w.tables.size = ⟨values, .empty, none⟩ := by
    simp [World.table]
  refine ⟨_, rfl, ?_⟩
  rw [htable]
  exact ⟨hsize, hnumbers⟩

end World

namespace LibraryFunction

/-- A call that succeeds gives a value of the kind of the function, or there is no inverse. -/
theorem hasKind_of_run {f : LibraryFunction} {call : NativeCall} {w w' : World} {v : Value}
    (h : f.run call w = (.ok v, w')) :
    f.resultKind.IsOf w v w' ∨ f = mat4Invert ∧ v = .nil ∧ w' = w := by
  unfold run at h
  split at h
  · cases h
  · split at h
    · cases h
    · rename_i result hresult
      cases h
      rcases kind?_of_compute hresult with hkind | ⟨rfl, hf⟩
      · exact .inl (World.isOf_ofResult hkind w)
      · exact .inr ⟨hf, rfl, rfl⟩

end LibraryFunction

/-! ### What fits goes on to fit -/

namespace World.IsKeptIn

variable {w w' w'' : World}

theorem trans (h : w.IsKeptIn w') (h' : w'.IsKeptIn w'') : w.IsKeptIn w'' where
  tables := h.tables.trans h'.tables
  globals := h'.globals.trans h.globals
  typeMetatable := h'.typeMetatable.trans h.typeMetatable
  nextIdentity := h'.nextIdentity.trans h.nextIdentity

theorem table_eq (h : w.IsKeptIn w') {id : TableId} (hid : id < w.tables.size) :
    w'.table id = w.table id := by
  have hread (u : World) : u.table id = u.tables.toList[id]?.getD .empty := by
    simp [World.table, Array.getD_eq_getD_getElem?]
  have hget : w'.tables.toList[id]? = w.tables.toList[id]? := by
    obtain ⟨rest, hrest⟩ := h.tables
    rw [← hrest, List.getElem?_append_left (by simpa using hid)]
  rw [hread, hread, hget]

/-- A table with elements was given out, so it is as it was. -/
theorem holdsNumbers (h : w.IsKeptIn w') {n : Nat} {v : Value} (hn : 0 < n)
    (hv : w.HoldsNumbers n v) : w'.HoldsNumbers n v := by
  obtain ⟨id, rfl, hsize, hnumbers⟩ := hv
  have hid : id < w.tables.size := by
    apply Classical.byContradiction
    intro hout
    have hempty : w.table id = .empty := by
      simp [World.table, Array.getD_eq_getD_getElem?, Array.getElem?_eq_none (Nat.le_of_not_lt hout)]
    rw [hempty] at hsize
    exact absurd hsize (Nat.ne_of_lt hn)
  refine ⟨id, rfl, ?_⟩
  rw [h.table_eq hid]
  exact ⟨hsize, hnumbers⟩

end World.IsKeptIn

namespace Parameter

theorem Fits.mono {w w' : World} {p : Parameter} {v : Value} (h : w.IsKeptIn w')
    (hv : p.Fits w v) : p.Fits w' v := by
  cases p with
  | scalar => exact hv
  | vec3 => exact h.holdsNumbers (by decide) hv
  | vec4 => exact h.holdsNumbers (by decide) hv
  | mat4 => exact h.holdsNumbers (by decide) hv
  | factor =>
    cases v with
    | table id => exact h.holdsNumbers (by decide) hv
    | _ => exact hv

def Admits : Parameter → ResultKind → Prop
  | scalar, k => k = .scalar
  | vec3, k => k = .vec3
  | vec4, k => k = .vec4
  | mat4, k => k = .mat4
  | factor, k => k = .scalar ∨ k = .mat4

theorem Admits.fits {p : Parameter} {k : ResultKind} {w w' : World} {v : Value} (h : p.Admits k)
    (hv : k.IsOf w v w') : p.Fits w' v := by
  cases p with
  | scalar =>
    cases h
    exact hv.1
  | vec3 =>
    cases h
    exact hv.holdsNumbers
  | vec4 =>
    cases h
    exact hv.holdsNumbers
  | mat4 =>
    cases h
    exact hv.holdsNumbers
  | factor =>
    rcases h with rfl | rfl
    · obtain ⟨⟨x, rfl⟩, -⟩ := hv
      exact ⟨x, rfl⟩
    · obtain ⟨id, rfl, hsize, hnumbers⟩ := hv.holdsNumbers
      exact ⟨id, rfl, hsize, hnumbers⟩

end Parameter

/-! ### Expressions -/

inductive LibraryExpression where
  | leaf (v : Value)
  | apply (f : LibraryFunction) (args : List LibraryExpression)

/-- A call that is made while an expression is evaluated. -/
structure LibraryCall where
  function : LibraryFunction
  args : List Value

namespace LibraryCall

def call (c : LibraryCall) : NativeCall := ⟨c.function.qualifiedName, c.args⟩

/-- None of the arguments along the signature is nil, by its value or since it is missing. -/
def HasNoNil (c : LibraryCall) : Prop :=
  ∀ i < c.function.signature.length, c.call.argument i ≠ .nil

instance (c : LibraryCall) : Decidable c.HasNoNil :=
  decidable_of_iff (∀ i < c.function.signature.length, (c.call.argument i).isNil = false)
    (forall₂_congr fun i _ => by rw [← Bool.not_eq_true, Value.isNil_iff])

def Refuses (c : LibraryCall) (e : RuntimeError) : Prop :=
  ∃ r, c.function.rangeError? c.call.number = some r ∧
    e = .badArgument (r.index + 1) c.function.qualifiedName r.reason

end LibraryCall

namespace LibraryExpression

mutual

/-- Evaluates an expression, the arguments of a function from left to right. -/
def evaluate : LibraryExpression → World → Except RuntimeError Value × World
  | leaf v, w => (.ok v, w)
  | apply f args, w =>
    match evaluateAll args w with
    | (.error e, w) => (.error e, w)
    | (.ok values, w) => f.run (LibraryCall.call ⟨f, values⟩) w

def evaluateAll : List LibraryExpression → World → Except RuntimeError (List Value) × World
  | [], w => (.ok [], w)
  | e :: es, w =>
    match evaluate e w with
    | (.error e, w) => (.error e, w)
    | (.ok v, w) => ((evaluateAll es w).1.map (v :: ·), (evaluateAll es w).2)

end

mutual

def calls : LibraryExpression → World → List LibraryCall
  | leaf _, _ => []
  | apply f args, w =>
    callsAll args w ++
      match (evaluateAll args w).1 with
      | .error _ => []
      | .ok values => [⟨f, values⟩]

def callsAll : List LibraryExpression → World → List LibraryCall
  | [], _ => []
  | e :: es, w =>
    calls e w ++
      match (evaluate e w).1 with
      | .error _ => []
      | .ok _ => callsAll es (evaluate e w).2

end

mutual

/-- The leaves and the results inside of an expression are what the signatures ask for, and so is
the expression itself; `none` where nothing is asked for. -/
def IsKinded (w : World) : LibraryExpression → Option Parameter → Prop
  | leaf v, p => ∀ q ∈ p, q.Fits w v
  | apply f args, p => (∀ q ∈ p, q.Admits f.resultKind) ∧ AreKinded w args f.signature

/-- Expressions are kinded along a signature. There may be more of them, as many calls have it. -/
def AreKinded (w : World) : List LibraryExpression → List Parameter → Prop
  | [], ps => ps = []
  | e :: es, ps => IsKinded w e ps.head? ∧ AreKinded w es ps.tail

end

/-! ### Evaluation -/

theorem evaluate_apply_of_error {args : List LibraryExpression} {w w' : World} {err : RuntimeError}
    (h : evaluateAll args w = (.error err, w')) (f : LibraryFunction) :
    evaluate (apply f args) w = (.error err, w') := by
  rw [evaluate, h]

theorem evaluate_apply_of_ok {args : List LibraryExpression} {w w' : World} {values : List Value}
    (h : evaluateAll args w = (.ok values, w')) (f : LibraryFunction) :
    evaluate (apply f args) w = f.run (LibraryCall.call ⟨f, values⟩) w' := by
  rw [evaluate, h]

theorem evaluateAll_cons_of_error {e : LibraryExpression} {w w' : World} {err : RuntimeError}
    (h : evaluate e w = (.error err, w')) (es : List LibraryExpression) :
    evaluateAll (e :: es) w = (.error err, w') := by
  rw [evaluateAll, h]

theorem evaluateAll_cons_of_ok {e : LibraryExpression} {w w' : World} {v : Value}
    (h : evaluate e w = (.ok v, w')) (es : List LibraryExpression) :
    evaluateAll (e :: es) w = ((evaluateAll es w').1.map (v :: ·), (evaluateAll es w').2) := by
  rw [evaluateAll, h]

theorem mem_calls_apply_of_args {args : List LibraryExpression} {w : World} {c : LibraryCall}
    (h : c ∈ callsAll args w) (f : LibraryFunction) : c ∈ calls (apply f args) w := by
  rw [calls]
  exact List.mem_append_left _ h

theorem mem_calls_apply_self {args : List LibraryExpression} {w w' : World} {values : List Value}
    (h : evaluateAll args w = (.ok values, w')) (f : LibraryFunction) :
    ⟨f, values⟩ ∈ calls (apply f args) w := by
  rw [calls, h]
  exact List.mem_append_right _ (List.mem_singleton.2 rfl)

theorem mem_callsAll_cons_of_first {e : LibraryExpression} {w : World} {c : LibraryCall}
    (h : c ∈ calls e w) (es : List LibraryExpression) : c ∈ callsAll (e :: es) w := by
  rw [callsAll]
  exact List.mem_append_left _ h

theorem mem_callsAll_cons_of_rest {e : LibraryExpression} {es : List LibraryExpression}
    {w w' : World} {v : Value} {c : LibraryCall} (h : evaluate e w = (.ok v, w'))
    (hc : c ∈ callsAll es w') : c ∈ callsAll (e :: es) w := by
  rw [callsAll, h]
  exact List.mem_append_right _ hc

mutual

theorem isKeptIn_evaluate (e : LibraryExpression) (w : World) : w.IsKeptIn (e.evaluate w).2 := by
  cases e with
  | leaf v =>
    rw [evaluate]
    exact .refl w
  | apply f args =>
    have hargs := isKeptIn_evaluateAll args w
    cases h : evaluateAll args w with
    | mk result w' =>
      rw [h] at hargs
      cases result with
      | error err =>
        rw [evaluate_apply_of_error h]
        exact hargs
      | ok values =>
        rw [evaluate_apply_of_ok h]
        exact hargs.trans (f.isKeptIn_run _ w')

theorem isKeptIn_evaluateAll (es : List LibraryExpression) (w : World) :
    w.IsKeptIn (evaluateAll es w).2 := by
  cases es with
  | nil =>
    rw [evaluateAll]
    exact .refl w
  | cons e es =>
    have hfirst := isKeptIn_evaluate e w
    cases h : evaluate e w with
    | mk result w' =>
      rw [h] at hfirst
      cases result with
      | error err =>
        rw [evaluateAll_cons_of_error h]
        exact hfirst
      | ok v =>
        rw [evaluateAll_cons_of_ok h]
        exact hfirst.trans (isKeptIn_evaluateAll es w')

end

mutual

theorem IsKinded.mono {w w' : World} (h : w.IsKeptIn w') {e : LibraryExpression}
    {p : Option Parameter} (he : IsKinded w e p) : IsKinded w' e p := by
  cases e with
  | leaf v =>
    rw [IsKinded] at he ⊢
    exact fun q hq => (he q hq).mono h
  | apply f args =>
    rw [IsKinded] at he ⊢
    exact ⟨he.1, AreKinded.mono h he.2⟩

theorem AreKinded.mono {w w' : World} (h : w.IsKeptIn w') {es : List LibraryExpression}
    {ps : List Parameter} (hes : AreKinded w es ps) : AreKinded w' es ps := by
  cases es with
  | nil =>
    rw [AreKinded] at hes ⊢
    exact hes
  | cons e es =>
    rw [AreKinded] at hes ⊢
    exact ⟨IsKinded.mono h hes.1, AreKinded.mono h hes.2⟩

end

def IsRefused (made : List LibraryCall) (err : RuntimeError) : Prop := ∃ c ∈ made, c.Refuses err

theorem IsRefused.mono {made made' : List LibraryCall} {err : RuntimeError}
    (h : IsRefused made err) (hmade : ∀ c ∈ made, c ∈ made') : IsRefused made' err := by
  obtain ⟨c, hc, hrefuses⟩ := h
  exact ⟨c, hmade c hc, hrefuses⟩

/-- A call whose arguments fit gives a value of its kind, or a nil, or it is refused. -/
theorem run_of_fit {f : LibraryFunction} {values : List Value} {w : World}
    (h : (LibraryCall.call ⟨f, values⟩).AllFit w f.signature) {p : Option Parameter}
    (hp : ∀ q ∈ p, q.Admits f.resultKind) :
    (∃ v w', f.run (LibraryCall.call ⟨f, values⟩) w = (.ok v, w') ∧
      ∀ q ∈ p, v ≠ .nil → q.Fits w' v) ∨
    ∃ err w', f.run (LibraryCall.call ⟨f, values⟩) w = (.error err, w') ∧
      LibraryCall.Refuses ⟨f, values⟩ err := by
  obtain ⟨hrefused, hcomputed⟩ := LibraryFunction.run_of_allFit h
  cases hr : f.rangeError? (LibraryCall.call ⟨f, values⟩).number with
  | some r => exact .inr ⟨_, _, hrefused r hr, r, hr, rfl⟩
  | none =>
    obtain ⟨v, hv⟩ := hcomputed hr
    have hrun : f.run (LibraryCall.call ⟨f, values⟩) w =
        (.ok v, (f.run (LibraryCall.call ⟨f, values⟩) w).2) := Prod.ext hv rfl
    refine .inl ⟨v, _, hrun, fun q hq hnil => ?_⟩
    rcases LibraryFunction.hasKind_of_run hrun with hkind | ⟨-, rfl, -⟩
    · exact (hp q hq).fits hkind
    · exact absurd rfl hnil

mutual

/-- While no argument is nil, a kinded expression comes to a value that fits, or a call is
refused. -/
theorem evaluate_of_isKinded (e : LibraryExpression) {p : Option Parameter} {w : World}
    (he : e.IsKinded w p) (hnil : ∀ c ∈ e.calls w, c.HasNoNil) :
    (∃ v w', e.evaluate w = (.ok v, w') ∧ ∀ q ∈ p, v ≠ .nil → q.Fits w' v) ∨
    ∃ err w', e.evaluate w = (.error err, w') ∧ IsRefused (e.calls w) err := by
  cases e with
  | leaf v =>
    rw [IsKinded] at he
    rw [evaluate]
    exact .inl ⟨v, w, rfl, fun q hq _ => he q hq⟩
  | apply f args =>
    rw [IsKinded] at he
    obtain ⟨hp, hargs⟩ := he
    rcases evaluateAll_of_areKinded args hargs
        (fun c hc => hnil c (mem_calls_apply_of_args hc f)) with
      ⟨values, w', hvalues, hfit⟩ | ⟨err, w', herr, hrefused⟩
    · have hself := mem_calls_apply_self hvalues f
      rw [evaluate_apply_of_ok hvalues]
      have hall : (LibraryCall.call ⟨f, values⟩).AllFit w' f.signature := fun i q hq =>
        hfit i q hq (hnil _ hself i (List.getElem?_eq_some_iff.1 hq).1)
      rcases run_of_fit hall hp with hok | ⟨err, w'', herr, hrefuses⟩
      · exact .inl hok
      · exact .inr ⟨err, w'', herr, _, hself, hrefuses⟩
    · rw [evaluate_apply_of_error herr]
      exact .inr ⟨err, w', rfl, hrefused.mono fun c hc => mem_calls_apply_of_args hc f⟩

theorem evaluateAll_of_areKinded (es : List LibraryExpression) {ps : List Parameter} {w : World}
    (hes : AreKinded w es ps) (hnil : ∀ c ∈ callsAll es w, c.HasNoNil) :
    (∃ values w', evaluateAll es w = (.ok values, w') ∧
      ∀ (i : Nat) (q : Parameter), ps[i]? = some q → values.getD i .nil ≠ .nil →
        q.Fits w' (values.getD i .nil)) ∨
    ∃ err w', evaluateAll es w = (.error err, w') ∧ IsRefused (callsAll es w) err := by
  cases es with
  | nil =>
    rw [AreKinded] at hes
    subst hes
    rw [evaluateAll]
    exact .inl ⟨[], w, rfl, nofun⟩
  | cons e es =>
    rw [AreKinded] at hes
    obtain ⟨he, hes⟩ := hes
    rcases evaluate_of_isKinded e he (fun c hc => hnil c (mem_callsAll_cons_of_first hc es)) with
      ⟨v, w', hv, hfit⟩ | ⟨err, w', herr, hrefused⟩
    · have hkept := isKeptIn_evaluate e w
      rw [hv] at hkept
      have hrest (c : LibraryCall) (hc : c ∈ callsAll es w') : c ∈ callsAll (e :: es) w :=
        mem_callsAll_cons_of_rest hv hc
      rcases evaluateAll_of_areKinded es (hes.mono hkept) (fun c hc => hnil c (hrest c hc)) with
        ⟨values, w'', hvalues, hfits⟩ | ⟨err, w'', herr, hrefused⟩
      · -- the first value was made before the others, so it still fits behind them
        have hkept' := isKeptIn_evaluateAll es w'
        rw [hvalues] at hkept'
        refine .inl ⟨v :: values, w'', by rw [evaluateAll_cons_of_ok hv, hvalues]; rfl, ?_⟩
        intro i q hq hne
        cases i with
        | zero => exact (hfit q (by rw [List.head?_eq_getElem?]; exact hq) hne).mono hkept'
        | succ i => exact hfits i q (by rw [List.getElem?_tail]; exact hq) hne
      · refine .inr ⟨err, w'', by rw [evaluateAll_cons_of_ok hv, herr]; rfl, ?_⟩
        exact hrefused.mono hrest
    · rw [evaluateAll_cons_of_error herr]
      exact .inr ⟨err, w', rfl, hrefused.mono fun c hc => mem_callsAll_cons_of_first hc es⟩

end

end LibraryExpression

/-! ### The two ways to refuse an argument -/

def rangeReasons : List String :=
  ["near plane distance must be positive", "far plane distance must be positive",
   "near plane distance must be less than far plane distance",
   "field of view must be between 0 and pi"]

theorem reason_mem_of_refusePlanes? {index : Nat} {near far : Float32} {r : Refusal}
    (h : refusePlanes? index near far = some r) : r.reason ∈ rangeReasons := by
  unfold refusePlanes? at h
  split at h
  · cases h
    simp [rangeReasons]
  · split at h
    · cases h
      simp [rangeReasons]
    · split at h
      · cases h
        simp [rangeReasons]
      · cases h

theorem reason_mem_of_refuseAngle? {angle : Float32} {r : Refusal}
    (h : refuseAngle? angle = some r) : r.reason ∈ rangeReasons := by
  unfold refuseAngle? at h
  split at h
  · cases h
    simp [rangeReasons]
  · cases h

theorem LibraryFunction.reason_mem_of_rangeError? {f : LibraryFunction} {number : Nat → Float32}
    {r : Refusal} (h : f.rangeError? number = some r) : r.reason ∈ rangeReasons := by
  cases f with
  | mat4Perspective => exact reason_mem_of_refusePlanes? h
  | mat4PerspectiveOffCenter => exact reason_mem_of_refusePlanes? h
  | mat4PerspectiveFov =>
    rw [rangeError?, Option.orElse_apply, Option.orElse_eq_or] at h
    rcases Option.or_eq_some_iff.1 h with hangle | ⟨-, hplanes⟩
    · exact reason_mem_of_refuseAngle? hangle
    · exact reason_mem_of_refusePlanes? hplanes
  | _ => cases h

theorem ValueKind.expected_not_mem (k : ValueKind) :
    "number expected, got " ++ k.name ∉ rangeReasons ∧
      "table expected, got " ++ k.name ∉ rangeReasons := by
  cases k <;> decide

namespace Parameter

theorem elementsComplaint_not_mem {message : String} (h : message ∉ rangeReasons) (v : Value) :
    elementsComplaint message v ∉ rangeReasons := by
  cases v with
  | table id => exact h
  | _ => exact (ValueKind.expected_not_mem _).2

/-- A complaint about an argument that does not fit says nothing about a range. -/
theorem complaint_not_mem (p : Parameter) (v : Value) : p.complaint v ∉ rangeReasons := by
  have hmat4 : mat4.complaint v ∉ rangeReasons := elementsComplaint_not_mem (by decide) v
  have hscalar : scalar.complaint v ∉ rangeReasons := v.kind.expected_not_mem.1
  cases p with
  | scalar => exact hscalar
  | vec3 => exact elementsComplaint_not_mem (by decide) v
  | vec4 => exact elementsComplaint_not_mem (by decide) v
  | mat4 => exact hmat4
  | factor =>
    cases v with
    | table id => exact hmat4
    | _ => exact hscalar

end Parameter

/-- **The results of the libraries are arguments of the libraries.** A call that succeeds gives a
number, or a table that is none of those that there were and has just the elements of its kind; only
an inverse can be nil. While an expression that is made along the signatures is evaluated and no
argument is nil, all arguments fit: the only failure is that of a perspective out of range. -/
theorem library_results_compose :
    (∀ (f : LibraryFunction) (call : NativeCall) (w w' : World) (v : Value),
      f.run call w = (.ok v, w') →
      (f.resultKind.IsOf w v w' ∨ f = .mat4Invert ∧ v = .nil ∧ w' = w) ∧
      ∀ id < w.tables.size, Value.same (.table id) v = false) ∧
    ∀ (e : LibraryExpression) (w : World), e.IsKinded w none → (∀ c ∈ e.calls w, c.HasNoNil) →
      ((∃ v, (e.evaluate w).1 = .ok v) ∨
        ∃ err, (e.evaluate w).1 = .error err ∧ ∃ c ∈ e.calls w, c.Refuses err) ∧
      ∀ (position : Nat) (name : String) (p : Parameter) (v : Value),
        (e.evaluate w).1 ≠ .error (.badArgument position name (p.complaint v)) := by
  refine ⟨fun f call w w' v h => ?_, fun e w he hnil => ?_⟩
  · have hkind := LibraryFunction.hasKind_of_run h
    refine ⟨hkind, fun id hid => ?_⟩
    cases v with
    | table new =>
      have hnew : new = w.tables.size := hkind.elim ResultKind.IsOf.place_eq nofun
      subst hnew
      exact decide_eq_false (Nat.ne_of_lt hid)
    | _ => rfl
  · rcases LibraryExpression.evaluate_of_isKinded e he hnil with
      ⟨v, w', hv, -⟩ | ⟨err, w', herr, c, hc, r, hr, rfl⟩
    · rw [hv]
      exact ⟨.inl ⟨v, rfl⟩, nofun⟩
    · rw [herr]
      refine ⟨.inr ⟨_, rfl, c, hc, r, hr, rfl⟩, fun position name p v heq => ?_⟩
      have hreason : r.reason = p.complaint v := by
        injection heq with heq
        injection heq
      apply p.complaint_not_mem v
      rw [← hreason]
      exact LibraryFunction.reason_mem_of_rangeError? hr

/-- Six calls, whose arguments are results of others of them, down to three numbers. One of the
numbers is none. -/
def LibraryExpression.composed : LibraryExpression :=
  .apply .mat4Sub
    [.apply .mat4Transpose
      [.apply .mat4Scale [.leaf (.number 2), .leaf (.number (0 / 0)), .leaf (.number 1)]],
     .apply .mat4Add [.apply .mat4Identity [], .apply .mat4Identity []]]

/-- The expression is made along the signatures and meets no nil, so no argument in it is unfit. The
first call of all gives a matrix that is none of the tables that there are. -/
theorem composed_calls_fit :
    LibraryExpression.composed.IsKinded .empty none ∧
    (∀ c ∈ LibraryExpression.composed.calls .empty, c.HasNoNil) ∧
    (LibraryExpression.composed.calls .empty).length = 6 ∧
    (LibraryExpression.composed.evaluate .empty).1 = .ok (.table 6) ∧
    (∀ (position : Nat) (name : String) (p : Parameter) (v : Value),
      (LibraryExpression.composed.evaluate .empty).1 ≠
        .error (.badArgument position name (p.complaint v))) ∧
    ∃ w, LibraryFunction.mat4Identity.run ⟨"mat4.identity", []⟩ .empty = (.ok (.table 1), w) ∧
      World.empty.GetsNumbers 16 (.table 1) w := by
  obtain ⟨hruns, hcomposes⟩ := library_results_compose
  have hkinded : LibraryExpression.composed.IsKinded .empty none := by
    simp [LibraryExpression.composed, LibraryExpression.IsKinded, LibraryExpression.AreKinded,
      LibraryFunction.signature, LibraryFunction.resultKind, LibraryFunction.library,
      Parameter.Admits, Parameter.Fits]
  have hnil : ∀ c ∈ LibraryExpression.composed.calls .empty, c.HasNoNil := by decide
  obtain ⟨-, hfits⟩ := hcomposes LibraryExpression.composed .empty hkinded hnil
  have hfirst : LibraryFunction.mat4Identity.run ⟨"mat4.identity", []⟩ .empty =
      (.ok (.table 1), (LibraryFunction.mat4Identity.run ⟨"mat4.identity", []⟩ .empty).2) := rfl
  have hmatrix := (hruns _ _ _ _ _ hfirst).1.resolve_right nofun
  exact ⟨hkinded, hnil, rfl, rfl, hfits, _, hfirst, hmatrix⟩

end RegisterMachine
