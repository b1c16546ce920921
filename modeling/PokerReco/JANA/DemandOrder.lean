/-
  PokerReco.JANA.DemandOrder
  ──────────────────────────
  **THE ORDER OF THE REQUESTS.**

  A `Meaning` says what the objects of each factory are, event by event, as an
  equation with no loop, no flags and nothing remembered in it: what the source
  hands over, or else what `evnt` makes of the objects of the factories before.
  The loop of `JEventLoop.lean` keeps to it:

      execs … s requests  =  what the meaning says of them, one by one

  and so it does not matter who asks first, how often, or in which event.
-/
import PokerReco.JANA.JEventLoop

namespace PokerReco.JANA

/-! ## §1. Bodies on their own. -/

/-- What a body leaves behind of its factory, and whether it throws. -/
structure Outcome (M T : Type) where
  thrown : Bool
  members : M
  _data : List T

/-- What is answered where the objects are `value`; where there are none, `evnt`
has thrown and so the answer is an exception. -/
def answer {T : Type} : Option (List T) → Except Thrown (List T)
  | some objects => .ok objects
  | none => .error (.exception "std::exception")

section Body

variable {K : Type} {O : K → Type} {M T : Type} (value : (j : K) → Option (List (O j)))

/-- A body with `data` published, if `value` are the objects it asks for. -/
def Body.outcome : Body K O M T → List T → Outcome M T
  | .ret members, data => ⟨false, members, data⟩
  | .throw _ members, data => ⟨true, members, data⟩
  | .push_back obj next, data => next.outcome (data ++ [obj])
  | .clear next, _ => next.outcome []
  | .SetFactoryFlag next, data => next.outcome data
  | .Get j next, data => (next (answer (value j))).outcome data

/-- The body asks only for the objects of factories in `P`, throws only a
`std::exception`, and does not make its factory persistent. -/
def Body.Within (P : K → Prop) : Body K O M T → Prop
  | .ret _ => True
  | .throw e _ => ∃ what, e = .exception what
  | .push_back _ next => next.Within P
  | .clear next => next.Within P
  | .SetFactoryFlag _ => False
  | .Get j next => P j ∧ (next (answer (value j))).Within P

/-- The body returns, with the objects as they were, and with members in `Q`. -/
def Body.Returns (Q : M → Prop) (body : Body K O M T) : Prop :=
  ∀ data, (body.outcome value data).thrown = false ∧ (body.outcome value data)._data = data
    ∧ Q (body.outcome value data).members

variable {value}

/-- Whether a body throws does not depend on what is published before. -/
theorem Body.outcome_thrown (body : Body K O M T) (data data' : List T) :
    (body.outcome value data).thrown = (body.outcome value data').thrown := by
  induction body generalizing data data' with
  | ret members => rfl
  | throw e members => rfl
  | push_back obj next ih => exact ih _ _
  | clear next ih => exact ih _ _
  | SetFactoryFlag next ih => exact ih _ _
  | Get j next ih => exact ih _ _ _

/-- The members that a body leaves do not depend on what is published before. -/
theorem Body.outcome_members (body : Body K O M T) (data data' : List T) :
    (body.outcome value data).members = (body.outcome value data').members := by
  induction body generalizing data data' with
  | ret members => rfl
  | throw e members => rfl
  | push_back obj next ih => exact ih _ _
  | clear next ih => exact ih _ _
  | SetFactoryFlag next ih => exact ih _ _
  | Get j next ih => exact ih _ _ _

end Body

/-! ## §2. The meaning of the factories. -/

/-- What the source hands over for the factory `k`, which is nothing when the
factory does not ask the source. -/
def handed {K : Type} {O : K → Type} (use_factory : K → Bool) (e : JEvent O) (k : K) :
    Option (List (O k)) :=
  if use_factory k then none else e.GetObjects k

/-- **What the factories are for.**  `value` are the objects of an event, none
where `evnt` throws.  `Fit` are the members at any time and `Ready` those after
`brun`, for which the objects do not depend on the members.  The factories ask
for those of smaller rank. -/
structure Meaning {K : Type} {O M : K → Type} (callbacks : (k : K) → Callbacks K O (M k) (O k))
    (use_factory : K → Bool) where
  value : JEvent O → (k : K) → Option (List (O k))
  rank : K → Nat
  Fit : (k : K) → M k → Prop
  Ready : (k : K) → Int32 → M k → Prop
  fit : ∀ {k run_number m}, Ready k run_number m → Fit k m
  init : ∀ {k m} e, Fit k m →
    ((callbacks k).init m).Within (value e) (rank · < rank k)
      ∧ ((callbacks k).init m).Returns (value e) (Fit k)
  erun : ∀ {k m} e, Fit k m →
    ((callbacks k).erun m).Within (value e) (rank · < rank k)
      ∧ ((callbacks k).erun m).Returns (value e) (Fit k)
  brun : ∀ {k m} (e : JEvent O), Fit k m →
    ((callbacks k).brun e.run_number m).Within (value e) (rank · < rank k)
      ∧ ((callbacks k).brun e.run_number m).Returns (value e) (Ready k e.run_number)
  evnt : ∀ {k m} (e : JEvent O), handed use_factory e k = none → Ready k e.run_number m →
    ((callbacks k).evnt e.event_number m).Within (value e) (rank · < rank k)
      ∧ Ready k e.run_number (((callbacks k).evnt e.event_number m).outcome (value e) []).members
      ∧ value e k =
        (let outcome := ((callbacks k).evnt e.event_number m).outcome (value e) []
         if outcome.thrown then none else some outcome._data)
  source : ∀ {k objects} e, handed use_factory e k = some objects → value e k = some objects

/-- What the meaning says of the requests, the current event being `e`. -/
def Meaning.answers {K : Type} {O M : K → Type}
    {callbacks : (k : K) → Callbacks K O (M k) (O k)} {use_factory : K → Bool}
    (meaning : Meaning callbacks use_factory) :
    JEvent O → List (JEventLoop.Request O) → List ((k : K) × Except Thrown (List (O k)))
  | _, [] => []
  | _, .newEvent e :: requests => meaning.answers e requests
  | e, .Get k :: requests => ⟨k, answer (meaning.value e k)⟩ :: meaning.answers e requests

namespace JEventLoop

variable {K : Type} {O M : K → Type} [DecidableEq K]
  {callbacks : (k : K) → Callbacks K O (M k) (O k)} {boundaries : Int32 → List UInt64}
  {use_factory : K → Bool} (meaning : Meaning callbacks use_factory)

/-! ## §3. What holds between the requests. -/

/-- What is known of a factory that is not being called: its flags, its members
and its objects fit the meaning. -/
structure AtRest (e : JEvent O) (k : K) (f : JFactory (M k) (O k)) : Prop where
  fit : meaning.Fit k f.members
  ready : f.brun_called = true → f.init_called = true ∧ meaning.Ready k f.brun_runnumber f.members
  persistant : f.persistant = false
  called : f.evnt_called = true → meaning.value e k = some f._data
  fresh : f.evnt_called = false → f._data = [] ∨ meaning.value e k = none

/-- All factories that are not being called are at rest. -/
structure Sound (s : JEventLoop O M) : Prop where
  use_factory : ∀ j, (s.factories j).use_factory = use_factory j
  at_rest : ∀ j, (s.factories j).busy = false → AtRest meaning s.event j (s.factories j)

/-- What a call keeps: the same factories are being called after it as before,
these notice nothing of it, and all others are at rest. -/
structure Kept (s s' : JEventLoop O M) : Prop where
  event : s'.event = s.event
  busy : ∀ j, (s'.factories j).busy = (s.factories j).busy
  called : ∀ j, (s.factories j).busy = true → Same (s.factories j) (s'.factories j)
  sound : Sound meaning s'

/-- A callback of `k` has run and left `outcome`: the other factories that are
being called notice nothing, and all others are at rest. -/
structure Ran (k : K) (s s' : JEventLoop O M) (outcome : Outcome (M k) (O k)) : Prop where
  event : s'.event = s.event
  busy : ∀ j, (s'.factories j).busy = (s.factories j).busy
  called : ∀ j, j ≠ k → (s.factories j).busy = true → Same (s.factories j) (s'.factories j)
  itself : ∃ n, s'.factories k = { s.factories k with
    members := outcome.members, _data := outcome._data, Ncalls_to_Get := n }
  sound : Sound meaning s'

variable {meaning} {k : K} {s t u : JEventLoop O M}

omit [DecidableEq K] in
/-- What the source hands over for a factory depends on the event alone, in a loop
that is sound. -/
theorem Sound.provided_eq (h : Sound meaning s) (k : K) :
    s.provided k = handed use_factory s.event k := by
  unfold provided handed
  rw [h.use_factory k]

/-- A factory that is being called changes, and the loop stays sound. -/
theorem Sound.modify (h : Sound meaning s) {g : JFactory (M k) (O k) → JFactory (M k) (O k)}
    (huse : (g (s.factories k)).use_factory = (s.factories k).use_factory)
    (hbusy : (g (s.factories k)).busy = true) : Sound meaning (s.modify k g) where
  use_factory j := by
    by_cases hjk : j = k
    · subst hjk
      rw [modify_factories_self, huse]
      exact h.use_factory j
    · rw [modify_factories_of_ne s hjk]
      exact h.use_factory j
  at_rest j hj := by
    by_cases hjk : j = k
    · subst hjk
      rw [modify_factories_self, hbusy] at hj
      cases hj
    · rw [modify_factories_of_ne s hjk] at hj ⊢
      exact h.at_rest j hj

/-- A step of a body by itself, which changes only the factory's own members
and objects. -/
theorem Ran.of_modify (h : Sound meaning s) (hbusy : (s.factories k).busy = true)
    {g : JFactory (M k) (O k) → JFactory (M k) (O k)} (outcome : Outcome (M k) (O k))
    (hg : g (s.factories k)
      = { s.factories k with members := outcome.members, _data := outcome._data }) :
    Ran meaning k s (s.modify k g) outcome where
  event := rfl
  busy j := by
    by_cases hjk : j = k
    · subst hjk
      rw [modify_factories_self, hg]
    · rw [modify_factories_of_ne s hjk]
  called j hjk _ := by
    rw [modify_factories_of_ne s hjk]
    exact Same.refl _
  itself := ⟨_, by rw [modify_factories_self, hg]⟩
  sound := h.modify (by rw [hg]) (by rw [hg]; exact hbusy)

omit [DecidableEq K] in
/-- A step of a body that asks for the objects of another factory, which leaves
its own factory as it was. -/
theorem Ran.of_kept (h : Kept meaning s t) (hbusy : (s.factories k).busy = true) (thrown : Bool) :
    Ran meaning k s t ⟨thrown, (s.factories k).members, (s.factories k)._data⟩ where
  event := h.event
  busy := h.busy
  called j _ := h.called j
  itself := ⟨_, h.called k hbusy⟩
  sound := h.sound

omit [DecidableEq K] in
/-- Two steps of a body, one after the other, leave what the second one leaves. -/
theorem Ran.trans {first second : Outcome (M k) (O k)} (h : Ran meaning k s t first)
    (h' : Ran meaning k t u second) : Ran meaning k s u second where
  event := h'.event.trans h.event
  busy j := (h'.busy j).trans (h.busy j)
  called j hjk hj := (h.called j hjk hj).trans (h'.called j hjk ((h.busy j).trans hj))
  itself := by
    obtain ⟨n, hn⟩ := h.itself
    obtain ⟨n', hn'⟩ := h'.itself
    exact ⟨n', by rw [hn', hn]⟩
  sound := h'.sound

/-- What the callbacks of `k` are answered while it is being called, `t` being
the loop when the callback starts. -/
def Serves (meaning : Meaning callbacks use_factory) (k : K)
    (Get : (j : K) → JEventLoop O M → Result O M (List (O j))) (t : JEventLoop O M) : Prop :=
  ∀ j u, meaning.rank j < meaning.rank k → Sound meaning u → u.event = t.event →
    (∀ i, (u.factories i).busy = (t.factories i).busy) →
    ∃ u', Get j u = some (answer (meaning.value u.event j), u') ∧ Kept meaning u u'

/-- A callback of `k`, called in the loop `s`, leaves `outcome`. -/
def Leaves (meaning : Meaning callbacks use_factory) (k : K) (s : JEventLoop O M)
    (outcome : Outcome (M k) (O k)) (result : Result O M Unit) : Prop :=
  ∃ out s', result = some (out, s') ∧ Ran meaning k s s' outcome
    ∧ if outcome.thrown then ∃ what, out = .error (.exception what) else out = .ok ()

omit [DecidableEq K] in
/-- What the callbacks are answered depends on the event and on which factories
are being called, and on nothing else of the loop. -/
theorem Serves.congr {Get : (j : K) → JEventLoop O M → Result O M (List (O j))}
    (h : Serves meaning k Get s) (hevent : t.event = s.event)
    (hbusy : ∀ i, (t.factories i).busy = (s.factories i).busy) : Serves meaning k Get t := by
  intro j u hj hu hue hub
  exact h j u hj hu (hue.trans hevent) fun i => (hub i).trans (hbusy i)

omit [DecidableEq K] in
/-- A body that goes on after a step leaves what the rest of it leaves. -/
theorem Leaves.after {first outcome : Outcome (M k) (O k)} {result : Result O M Unit}
    (h : Ran meaning k s t first) (h' : Leaves meaning k t outcome result) :
    Leaves meaning k s outcome result := by
  obtain ⟨out, u, hresult, hran, hout⟩ := h'
  exact ⟨out, u, hresult, h.trans hran, hout⟩

/-- **A body** run in the loop does what it does on its own. -/
theorem runBody_leaves {Get : (j : K) → JEventLoop O M → Result O M (List (O j))}
    (body : Body K O (M k) (O k)) (hget : Serves meaning k Get s) (hsound : Sound meaning s)
    (hbusy : (s.factories k).busy = true)
    (hwithin : body.Within (meaning.value s.event) (meaning.rank · < meaning.rank k)) :
    Leaves meaning k s (body.outcome (meaning.value s.event) (s.factories k)._data)
      (runBody Get k body s) := by
  induction body generalizing s with
  | ret members => exact ⟨_, _, rfl, Ran.of_modify hsound hbusy _ rfl, rfl⟩
  | throw e members =>
      obtain ⟨what, rfl⟩ := hwithin
      exact ⟨_, _, rfl, Ran.of_modify hsound hbusy _ rfl, what, rfl⟩
  | push_back obj next ih =>
      have hran := Ran.of_modify (g := fun f => { f with _data := f._data ++ [obj] }) hsound hbusy
        ⟨false, (s.factories k).members, (s.factories k)._data ++ [obj]⟩ rfl
      have hrest := ih (hget.congr hran.event hran.busy) hran.sound
        ((hran.busy k).trans hbusy) hwithin
      rw [modify_factories_self] at hrest
      exact hrest.after hran
  | clear next ih =>
      have hran := Ran.of_modify (g := ({ · with _data := [] })) hsound hbusy
        ⟨false, (s.factories k).members, []⟩ rfl
      have hrest := ih (hget.congr hran.event hran.busy) hran.sound
        ((hran.busy k).trans hbusy) hwithin
      rw [modify_factories_self] at hrest
      exact hrest.after hran
  | SetFactoryFlag next ih => exact hwithin.elim
  | Get j next ih =>
      -- the factory that is asked has a smaller rank, and answers as meant
      obtain ⟨s₁, hs₁, hkept⟩ := hget j s hwithin.1 hsound rfl (fun _ => rfl)
      have hran := Ran.of_kept hkept hbusy false
      have hrest := ih (answer (meaning.value s.event j)) (hget.congr hran.event hran.busy)
        hran.sound ((hran.busy k).trans hbusy) (by rw [hran.event]; exact hwithin.2)
      have hdata : (s₁.factories k)._data = (s.factories k)._data := (hkept.called k hbusy).data
      rw [hran.event, hdata] at hrest
      unfold runBody
      rw [hs₁]
      exact hrest.after hran

/-! ## §4. One call. -/

/-- What is known while `k` is being called; `s` is the loop before it. -/
structure Calling (meaning : Meaning callbacks use_factory) (k : K) (s t : JEventLoop O M) :
    Prop where
  event : t.event = s.event
  busy : ∀ j, (t.factories j).busy = (decide (j = k) || (s.factories j).busy)
  called : ∀ j, j ≠ k → (s.factories j).busy = true → Same (s.factories j) (t.factories j)
  sound : Sound meaning t
  not_called : (t.factories k).evnt_called = false
  persistant : (t.factories k).persistant = false

/-- While `k` is being called, it is marked as being called. -/
theorem Calling.itself (h : Calling meaning k s t) : (t.factories k).busy = true := by
  simp [h.busy]

/-- While `k` is being called, one of its callbacks runs. -/
theorem Calling.ran {outcome : Outcome (M k) (O k)} (h : Calling meaning k s t)
    (h' : Ran meaning k t u outcome) : Calling meaning k s u where
  event := h'.event.trans h.event
  busy j := (h'.busy j).trans (h.busy j)
  called j hjk hj := by
    refine (h.called j hjk hj).trans (h'.called j hjk ?_)
    rw [h.busy j, hj, Bool.or_true]
  sound := h'.sound
  not_called := by
    obtain ⟨n, hn⟩ := h'.itself
    rw [hn]
    exact h.not_called
  persistant := by
    obtain ⟨n, hn⟩ := h'.itself
    rw [hn]
    exact h.persistant

/-- While `k` is being called, it notes what was called, between two callbacks. -/
theorem Calling.note (h : Calling meaning k s t) {g : JFactory (M k) (O k) → JFactory (M k) (O k)}
    (huse : ∀ f, (g f).use_factory = f.use_factory) (hbusy : ∀ f, (g f).busy = f.busy)
    (hevnt : ∀ f, (g f).evnt_called = f.evnt_called)
    (hpersistant : ∀ f, (g f).persistant = f.persistant) :
    Calling meaning k s (t.modify k g) where
  event := h.event
  busy j := by
    by_cases hjk : j = k
    · subst hjk
      rw [modify_factories_self, hbusy]
      exact h.busy j
    · rw [modify_factories_of_ne t hjk]
      exact h.busy j
  called j hjk hj := by
    rw [modify_factories_of_ne t hjk]
    exact h.called j hjk hj
  sound := h.sound.modify (huse _) ((hbusy _).trans h.itself)
  not_called := by
    rw [modify_factories_self, hevnt]
    exact h.not_called
  persistant := by
    rw [modify_factories_self, hpersistant]
    exact h.persistant

/-- With `busy++` the call of `k` begins. -/
theorem Calling.start (hsound : Sound meaning s) (hbusy : (s.factories k).busy = false)
    (hevnt : (s.factories k).evnt_called = false) :
    Calling meaning k s (s.modify k ({ · with busy := true })) where
  event := rfl
  busy j := by
    by_cases hjk : j = k
    · subst hjk
      simp
    · rw [modify_factories_of_ne s hjk]
      simp [hjk]
  called j hjk _ := by
    rw [modify_factories_of_ne s hjk]
    exact Same.refl _
  sound := hsound.modify rfl rfl
  not_called := by
    rw [modify_factories_self]
    exact hevnt
  persistant := by
    rw [modify_factories_self]
    exact (hsound.at_rest k hbusy).persistant

/-- The call of `k` is over, and `k` is at rest like the factories that it
has asked. -/
theorem Calling.over (h : Calling meaning k s t) (hbusy : (s.factories k).busy = false)
    (hevent : u.event = t.event) (hothers : ∀ j, j ≠ k → u.factories j = t.factories j)
    (huse : (u.factories k).use_factory = (t.factories k).use_factory)
    (hidle : (u.factories k).busy = false) (hrest : AtRest meaning s.event k (u.factories k)) :
    Kept meaning s u where
  event := hevent.trans h.event
  busy j := by
    by_cases hjk : j = k
    · subst hjk
      rw [hidle, hbusy]
    · rw [hothers j hjk, h.busy j]
      simp [hjk]
  called j hj := by
    by_cases hjk : j = k
    · subst hjk
      rw [hbusy] at hj
      cases hj
    · rw [hothers j hjk]
      exact h.called j hjk hj
  sound :=
    { use_factory := fun j => by
        by_cases hjk : j = k
        · subst hjk
          exact huse.trans (h.sound.use_factory j)
        · rw [hothers j hjk]
          exact h.sound.use_factory j
      at_rest := fun j hj => by
        by_cases hjk : j = k
        · subst hjk
          rw [hevent, h.event]
          exact hrest
        · rw [hothers j hjk] at hj ⊢
          rw [hevent]
          exact h.sound.at_rest j hj }

/-- What is known of `k` besides while it is being called, before `evnt`. -/
structure Staged (meaning : Meaning callbacks use_factory) (k : K) (s t : JEventLoop O M) :
    Prop where
  calling : Calling meaning k s t
  data : (t.factories k)._data = (s.factories k)._data
  fit : meaning.Fit k (t.factories k).members
  ready : (t.factories k).brun_called = true →
    meaning.Ready k (t.factories k).brun_runnumber (t.factories k).members

/-- After a callback that returns, what follows its `try` is run. -/
theorem guarded_returns {T : Type} (stage : String) (next : JEventLoop O M → Result O M T)
    {outcome : Outcome (M k) (O k)} {result : Result O M Unit}
    (h : Leaves meaning k t outcome result) (hreturns : outcome.thrown = false) :
    ∃ u, guarded callbacks k stage result next = next u ∧ Ran meaning k t u outcome := by
  obtain ⟨out, u, hresult, hran, hout⟩ := h
  rw [hreturns, if_neg Bool.false_ne_true] at hout
  refine ⟨u, ?_, hran⟩
  unfold guarded
  rw [hresult, hout]
  rfl

/-- After `init`, which is called once, the members fit. -/
theorem init_stage {T : Type} {Get : (j : K) → JEventLoop O M → Result O M (List (O j))}
    {next : JEventLoop O M → Result O M T} (hget : Serves meaning k Get t)
    (h : Staged meaning k s t)
    (hinit : (t.factories k).brun_called = true → (t.factories k).init_called = true) :
    ∃ u, guarded callbacks k " (init)" (callInit callbacks Get k t) next = next u
      ∧ Staged meaning k s u := by
  unfold callInit
  split
  · exact ⟨t, rfl, h⟩
  · next hnot =>
      obtain ⟨hwithin, hreturns⟩ := meaning.init t.event h.fit
      obtain ⟨hthrown, hdata, hfit⟩ := hreturns (t.factories k)._data
      obtain ⟨u, hu, hran⟩ := guarded_returns " (init)" next
        (runBody_leaves _ hget h.calling.sound h.calling.itself hwithin) hthrown
      refine ⟨u, hu, h.calling.ran hran, ?_, ?_, ?_⟩
      · obtain ⟨n, hn⟩ := hran.itself
        rw [hn]
        exact hdata.trans h.data
      · obtain ⟨n, hn⟩ := hran.itself
        rw [hn]
        exact hfit
      · obtain ⟨n, hn⟩ := hran.itself
        rw [hn]
        intro hbrun
        exact absurd (hinit hbrun) hnot

/-- What `afterErun` leaves of `k`: `brun` counts only for the run of the
event. -/
theorem afterErun_itself (boundaries : Int32 → List UInt64) (t : JEventLoop O M) (k : K) :
    ∃ brun erun, (t.afterErun boundaries k).factories k
        = { t.factories k with brun_called := brun, erun_called := erun }
      ∧ (brun = true → (t.factories k).brun_called = true
          ∧ t.event.run_number = (t.factories k).brun_runnumber) := by
  unfold afterErun
  rw [modify_factories_self]
  dsimp only
  by_cases hrun : t.event.run_number = (t.factories k).brun_runnumber
  · rw [if_neg (not_not.mpr hrun)]
    split_ifs
    · exact ⟨false, _, rfl, fun h => by cases h⟩
    · exact ⟨_, _, rfl, fun h => ⟨h, hrun⟩⟩
  · rw [if_pos hrun]
    exact ⟨false, _, rfl, fun h => by cases h⟩

/-- What is noted after `erun` leaves the call of `k` going on. -/
theorem Calling.afterErun (h : Calling meaning k s t) :
    Calling meaning k s (t.afterErun boundaries k) := by
  refine h.note ?_ ?_ ?_ ?_
  · intro f
    dsimp only
    split_ifs <;> rfl
  · intro f
    dsimp only
    split_ifs <;> rfl
  · intro f
    dsimp only
    split_ifs <;> rfl
  · intro f
    dsimp only
    split_ifs <;> rfl

/-- `erun`, after which `brun` is needed or has been called for the run. -/
theorem erun_stage {T : Type} {Get : (j : K) → JEventLoop O M → Result O M (List (O j))}
    {next : JEventLoop O M → Result O M T} (boundaries : Int32 → List UInt64)
    (hget : Serves meaning k Get t) (h : Staged meaning k s t)
    (hinit : (t.factories k).init_called = true) :
    ∃ u, guarded callbacks k " (erun)" (callErun callbacks Get k t) next = next u
      ∧ Staged meaning k s (u.afterErun boundaries k)
      ∧ ((u.afterErun boundaries k).factories k).init_called = true
      ∧ (((u.afterErun boundaries k).factories k).brun_called = true →
          ((u.afterErun boundaries k).factories k).brun_runnumber = s.event.run_number) := by
  unfold callErun
  split
  · next hcond =>
      obtain ⟨hwithin, hreturns⟩ := meaning.erun t.event h.fit
      obtain ⟨hthrown, hdata, hfit⟩ := hreturns (t.factories k)._data
      obtain ⟨u, hu, hran⟩ := guarded_returns " (erun)" next
        (runBody_leaves _ hget h.calling.sound h.calling.itself hwithin) hthrown
      obtain ⟨n, hn⟩ := hran.itself
      obtain ⟨brun, erun, hafter, hbrun⟩ := afterErun_itself boundaries u k
      -- the run has changed, and so `brun` is needed
      have hnot : brun = true → False := by
        intro hb
        have hrun := (hbrun hb).2
        rw [hn, hran.event] at hrun
        exact hcond.1 hrun
      refine ⟨u, hu, ⟨(h.calling.ran hran).afterErun, ?_, ?_, ?_⟩, ?_, ?_⟩
      · rw [hafter, hn]
        exact hdata.trans h.data
      · rw [hafter, hn]
        exact hfit
      · rw [hafter]
        intro hb
        exact (hnot hb).elim
      · rw [hafter, hn]
        exact hinit
      · rw [hafter]
        intro hb
        exact (hnot hb).elim
  · obtain ⟨brun, erun, hafter, hbrun⟩ := afterErun_itself boundaries t k
    refine ⟨t, rfl, ⟨h.calling.afterErun, ?_, ?_, ?_⟩, ?_, ?_⟩
    · rw [hafter]
      exact h.data
    · rw [hafter]
      exact h.fit
    · rw [hafter]
      intro hb
      exact h.ready (hbrun hb).1
    · rw [hafter]
      exact hinit
    · rw [hafter]
      intro hb
      exact (hbrun hb).2.symm.trans (congrArg JEvent.run_number h.calling.event)

/-- `brun`, after which the members are ready for the run. -/
theorem brun_stage {T : Type} {Get : (j : K) → JEventLoop O M → Result O M (List (O j))}
    {next : JEventLoop O M → Result O M T} (hget : Serves meaning k Get t)
    (h : Staged meaning k s t) (hinit : (t.factories k).init_called = true)
    (hrun : (t.factories k).brun_called = true →
      (t.factories k).brun_runnumber = s.event.run_number) :
    ∃ u, guarded callbacks k " (brun)" (callBrun callbacks Get k t) next = next u
      ∧ Staged meaning k s (u.afterBrun k)
      ∧ ((u.afterBrun k).factories k).init_called = true
      ∧ ((u.afterBrun k).factories k).brun_called = true
      ∧ ((u.afterBrun k).factories k).brun_runnumber = s.event.run_number := by
  -- what is noted of `brun` leaves the flags that a call is known by
  have hnote : ∀ u, Calling meaning k s u → Calling meaning k s (u.afterBrun k) := by
    intro u hu
    refine hu.note ?_ ?_ ?_ ?_
    · intro f
      split_ifs <;> rfl
    · intro f
      split_ifs <;> rfl
    · intro f
      split_ifs <;> rfl
    · intro f
      split_ifs <;> rfl
  unfold callBrun
  split
  · next hbrun =>
      -- `brun` was called for this run already, and nothing is noted
      have hafter : (t.afterBrun k).factories k = t.factories k := by
        unfold afterBrun
        rw [modify_factories_self, if_pos hbrun]
      refine ⟨t, rfl, ⟨hnote t h.calling, ?_, ?_, ?_⟩, ?_⟩
      · rw [hafter]
        exact h.data
      · rw [hafter]
        exact h.fit
      · rw [hafter]
        exact h.ready
      · rw [hafter]
        exact ⟨hinit, hbrun, hrun hbrun⟩
  · next hbrun =>
      -- else it is run, and the members that it leaves are ready
      obtain ⟨hwithin, hreturns⟩ := meaning.brun t.event h.fit
      obtain ⟨hthrown, hdata, hready⟩ := hreturns (t.factories k)._data
      obtain ⟨u, hu, hran⟩ := guarded_returns " (brun)" next
        (runBody_leaves _ hget h.calling.sound h.calling.itself hwithin) hthrown
      obtain ⟨n, hn⟩ := hran.itself
      have hafter : (u.afterBrun k).factories k = { u.factories k with
          brun_called := true, erun_called := false, brun_runnumber := t.event.run_number,
          brun_eventnumber := t.event.event_number } := by
        unfold afterBrun
        rw [modify_factories_self, if_neg (by rw [hn]; exact hbrun), hran.event]
      refine ⟨u, hu, ⟨hnote u (h.calling.ran hran), ?_, ?_, ?_⟩, ?_⟩
      · rw [hafter, hn]
        exact hdata.trans h.data
      · rw [hafter, hn]
        exact meaning.fit hready
      · rw [hafter, hn]
        intro _
        exact hready
      · rw [hafter, hn]
        exact ⟨hinit, rfl, congrArg JEvent.run_number h.calling.event⟩

/-- The end of a call, `called` if `evnt` has returned: the factory is at
rest again. -/
theorem Calling.ended (called : Bool) (n : Nat) (h : Calling meaning k s t)
    (hbusy : (s.factories k).busy = false) (hinit : (t.factories k).init_called = true)
    (hready : meaning.Ready k (t.factories k).brun_runnumber (t.factories k).members)
    (hevent : u.event = t.event) (hothers : ∀ j, j ≠ k → u.factories j = t.factories j)
    (hu : u.factories k = { t.factories k with
      busy := false, evnt_called := called, Ncalls_to_Get := n })
    (hvalue : meaning.value s.event k = if called then some (t.factories k)._data else none) :
    Kept meaning s u := by
  refine h.over hbusy hevent hothers (by rw [hu]) (by rw [hu]) ?_
  rw [hu]
  refine ⟨meaning.fit hready, fun _ => ⟨hinit, hready⟩, h.persistant, ?_, ?_⟩
  · intro hcalled
    rw [hvalue, if_pos hcalled]
  · intro hcalled
    right
    rw [hvalue]
    dsimp only at hcalled
    rw [hcalled]
    rfl

/-- `evnt`, from the members that `brun` has made ready: the objects are those
of the meaning, or there are none and `busy` is cleared. -/
theorem evnt_stage {Get : (j : K) → JEventLoop O M → Result O M (List (O j))}
    (hget : Serves meaning k Get t) (h : Staged meaning k s t)
    (hinit : (t.factories k).init_called = true) (hbrun : (t.factories k).brun_called = true)
    (hrun : (t.factories k).brun_runnumber = s.event.run_number)
    (hprov : handed use_factory s.event k = none) (hbusy : (s.factories k).busy = false)
    (hfresh : (s.factories k)._data = [] ∨ meaning.value s.event k = none) :
    ∃ s', (guarded callbacks k " (evnt)" (callEvnt callbacks Get k t) fun u =>
          some ((u.CopyFrom k).1,
            (u.CopyFrom k).2.modify k ({ · with evnt_called := true, busy := false }))).map
          (rethrow callbacks k) = some (answer (meaning.value s.event k), s')
      ∧ Kept meaning s s' := by
  have hready := h.ready hbrun
  rw [hrun] at hready
  obtain ⟨hwithin, hready', hvalue⟩ := meaning.evnt s.event hprov hready
  unfold callEvnt
  dsimp only
  -- the count of the calls of `evnt`
  generalize hcount : t.modify k (fun f => { f with Ncalls_to_evnt := f.Ncalls_to_evnt + 1 }) = t'
  have ht' : Calling meaning k s t' := by
    rw [← hcount]
    exact h.calling.note (fun _ => rfl) (fun _ => rfl) (fun _ => rfl) (fun _ => rfl)
  have hitself : t'.factories k
      = { t.factories k with Ncalls_to_evnt := (t.factories k).Ncalls_to_evnt + 1 } := by
    rw [← hcount, modify_factories_self]
  have hget' : Serves meaning k Get t' := by
    refine hget.congr (by rw [← hcount]; rfl) fun i => ?_
    rw [ht'.busy, h.calling.busy]
  have hmembers : (t'.factories k).members = (t.factories k).members := by rw [hitself]
  have hdata : (t'.factories k)._data = (s.factories k)._data := by
    rw [hitself]
    exact h.data
  rw [hmembers, ht'.event]
  generalize (callbacks k).evnt s.event.event_number (t.factories k).members = body at *
  have hleaves := runBody_leaves body hget' ht'.sound ht'.itself (by rw [ht'.event]; exact hwithin)
  rw [ht'.event, hdata] at hleaves
  obtain ⟨out, u, hresult, hran, hout⟩ := hleaves
  have hcalling := ht'.ran hran
  obtain ⟨n, hn⟩ := hran.itself
  rw [hitself] at hn
  have huinit : (u.factories k).init_called = true := by
    rw [hn]
    exact hinit
  have huready : meaning.Ready k (u.factories k).brun_runnumber (u.factories k).members := by
    rw [hn]
    dsimp only
    rw [hrun, body.outcome_members _ []]
    exact hready'
  rw [hresult]
  unfold guarded
  rw [Option.bind_some]
  dsimp only at hvalue
  rw [body.outcome_thrown [] (s.factories k)._data] at hvalue
  cases hthrown : (body.outcome (meaning.value s.event) (s.factories k)._data).thrown with
  | true =>
      rw [hthrown, if_pos rfl] at hout hvalue
      obtain ⟨what, rfl⟩ := hout
      have hkept : Kept meaning s
          ((u.caught callbacks k " (evnt)" (.exception what)).AddToErrorCallStack callbacks k
            "") := by
        refine hcalling.ended false (u.factories k).Ncalls_to_Get hbusy huinit huready rfl ?_ ?_
          hvalue
        · intro j hjk
          exact caught_factories_of_ne u hjk " (evnt)" what
        · show (u.caught callbacks k " (evnt)" (.exception what)).factories k = _
          rw [caught_factories_self]
          exact congrArg (fun b => { u.factories k with busy := false, evnt_called := b })
            hcalling.not_called
      refine ⟨_, ?_, hkept⟩
      rw [hvalue]
      rfl
  | false =>
      rw [hthrown, if_neg Bool.false_ne_true] at hout hvalue
      have hempty : (s.factories k)._data = [] := by
        cases hfresh with
        | inl h => exact h
        | inr h =>
            rw [hvalue] at h
            cases h
      have hudata : (u.factories k)._data = (body.outcome (meaning.value s.event) [])._data := by
        rw [hn, hempty]
      rw [← hudata] at hvalue
      have hkept : Kept meaning s
          ((u.CopyFrom k).2.modify k ({ · with evnt_called := true, busy := false })) := by
        refine hcalling.ended true ((u.factories k).Ncalls_to_Get + 1) hbusy huinit huready rfl
          ?_ ?_ hvalue
        · intro j hjk
          rw [modify_factories_of_ne _ hjk]
          exact CopyFrom_factories_of_ne u hjk
        · rw [modify_factories_self, CopyFrom_factories_self]
      refine ⟨_, ?_, hkept⟩
      rw [hvalue, hout]
      rfl

/-! ## §5. The loop keeps to the meaning. -/

/-- A factory at rest changes and is at rest again, and the rest of the
loop is kept. -/
theorem Kept.of_modify (h : Sound meaning s) (hbusy : (s.factories k).busy = false)
    {g : JFactory (M k) (O k) → JFactory (M k) (O k)}
    (huse : (g (s.factories k)).use_factory = (s.factories k).use_factory)
    (hidle : (g (s.factories k)).busy = false)
    (hrest : AtRest meaning s.event k (g (s.factories k))) :
    Kept meaning s (s.modify k g) where
  event := rfl
  busy j := by
    by_cases hjk : j = k
    · subst hjk
      rw [modify_factories_self, hidle, hbusy]
    · rw [modify_factories_of_ne s hjk]
  called j hj := by
    by_cases hjk : j = k
    · subst hjk
      rw [hbusy] at hj
      cases hj
    · rw [modify_factories_of_ne s hjk]
      exact Same.refl _
  sound :=
    { use_factory := fun j => by
        by_cases hjk : j = k
        · subst hjk
          rw [modify_factories_self, huse]
          exact h.use_factory j
        · rw [modify_factories_of_ne s hjk]
          exact h.use_factory j
      at_rest := fun j hj => by
        by_cases hjk : j = k
        · subst hjk
          rw [modify_factories_self]
          exact hrest
        · rw [modify_factories_of_ne s hjk] at hj ⊢
          exact h.at_rest j hj }

omit [DecidableEq K] in
/-- Two calls, one after the other, keep what both keep. -/
theorem Kept.trans (h : Kept meaning s t) (h' : Kept meaning t u) : Kept meaning s u where
  event := h'.event.trans h.event
  busy j := (h'.busy j).trans (h.busy j)
  called j hj := (h.called j hj).trans (h'.called j ((h.busy j).trans hj))
  sound := h'.sound

/-- A request for objects that are there is answered as the meaning says. -/
theorem CopyFrom_kept (h : Sound meaning s) (hbusy : (s.factories k).busy = false)
    (hevnt : (s.factories k).evnt_called = true) :
    (s.CopyFrom k).1 = answer (meaning.value s.event k) ∧ Kept meaning s (s.CopyFrom k).2 := by
  have hrest := h.at_rest k hbusy
  have hkept : Kept meaning s
      (s.modify k fun f => { f with Ncalls_to_Get := f.Ncalls_to_Get + 1 }) :=
    .of_modify h hbusy rfl hbusy
      ⟨hrest.fit, hrest.ready, hrest.persistant, hrest.called, hrest.fresh⟩
  refine ⟨?_, hkept⟩
  rw [hrest.called hevnt]
  rfl

/-- `JFactory::Get` of a factory that is not being called is answered as the
meaning says. -/
theorem factoryGet_kept {Get : (j : K) → JEventLoop O M → Result O M (List (O j))}
    (hget : ∀ t, Calling meaning k s t → Serves meaning k Get t) (h : Sound meaning s)
    (hbusy : (s.factories k).busy = false) (hevnt : (s.factories k).evnt_called = false)
    (hprov : s.provided k = none) :
    ∃ s', (factoryGet callbacks boundaries Get k s).map (rethrow callbacks k)
        = some (answer (meaning.value s.event k), s') ∧ Kept meaning s s' := by
  have hrest := h.at_rest k hbusy
  rw [h.provided_eq] at hprov
  -- the stages follow one another, each from what the one before has left
  have hstart : Staged meaning k s (s.modify k ({ · with busy := true })) := by
    refine ⟨.start h hbusy hevnt, ?_, ?_, ?_⟩
    · rw [modify_factories_self]
    · rw [modify_factories_self]
      exact hrest.fit
    · rw [modify_factories_self]
      exact fun hbrun => (hrest.ready hbrun).2
  unfold factoryGet
  rw [if_neg (by rw [hevnt]; exact Bool.false_ne_true),
    if_neg (by rw [hbusy]; exact Bool.false_ne_true)]
  obtain ⟨t₁, ht₁, hstaged₁⟩ := init_stage (hget _ hstart.calling) hstart (by
    rw [modify_factories_self]
    exact fun hbrun => (hrest.ready hbrun).1)
  rw [ht₁]
  have hnoted : Staged meaning k s (t₁.modify k ({ · with init_called := true })) := by
    refine ⟨hstaged₁.calling.note (fun _ => rfl) (fun _ => rfl) (fun _ => rfl) (fun _ => rfl),
      ?_, ?_, ?_⟩
    · rw [modify_factories_self]
      exact hstaged₁.data
    · rw [modify_factories_self]
      exact hstaged₁.fit
    · rw [modify_factories_self]
      exact hstaged₁.ready
  obtain ⟨t₂, ht₂, hstaged₂, hinit₂, hrun₂⟩ :=
    erun_stage boundaries (hget _ hnoted.calling) hnoted (by
      rw [modify_factories_self])
  rw [ht₂]
  obtain ⟨t₃, ht₃, hstaged₃, hinit₃, hbrun₃, hrun₃⟩ :=
    brun_stage (hget _ hstaged₂.calling) hstaged₂ hinit₂ hrun₂
  rw [ht₃]
  exact evnt_stage (hget _ hstaged₃.calling) hstaged₃ hinit₃ hbrun₃ hrun₃ hprov hbusy
    (hrest.fresh hevnt)

/-- **One call** of `Get`, nested below calls for factories of greater rank. -/
theorem Get_kept (boundaries : Int32 → List UInt64) (depth : Nat) :
    ∀ (k : K) (s : JEventLoop O M), meaning.rank k < depth → Sound meaning s →
    (∀ j, (s.factories j).busy = true → meaning.rank k < meaning.rank j) →
    ∃ s', Get callbacks boundaries depth k s = some (answer (meaning.value s.event k), s')
      ∧ Kept meaning s s' := by
  induction depth with
  | zero => intro k s h; omega
  | succ depth ih =>
      intro k s hdepth h habove
      have hbusy : (s.factories k).busy = false := by
        cases hb : (s.factories k).busy with
        | false => rfl
        | true => exact absurd (habove k hb) (Nat.lt_irrefl _)
      cases hevnt : (s.factories k).evnt_called with
      | true =>
          unfold JEventLoop.Get
          rw [hevnt, if_pos rfl]
          obtain ⟨hout, hkept⟩ := CopyFrom_kept h hbusy hevnt
          exact ⟨_, congrArg some (Prod.ext hout rfl), hkept⟩
      | false =>
          cases hprov : s.provided k with
          | some objects =>
              have hrest := h.at_rest k hbusy
              have hvalue : meaning.value s.event k = some objects :=
                meaning.source s.event (by rw [← h.provided_eq]; exact hprov)
              have hread : Kept meaning s
                  (s.modify k ({ · with _data := objects, evnt_called := true })) :=
                .of_modify h hbusy rfl hbusy ⟨hrest.fit, hrest.ready, hrest.persistant,
                  fun _ => hvalue, Bool.noConfusion⟩
              rw [Get_provided hevnt hprov]
              obtain ⟨hout, hkept⟩ := CopyFrom_kept (k := k) hread.sound
                ((hread.busy k).trans hbusy) (by rw [modify_factories_self])
              exact ⟨_, congrArg some (Prod.ext hout rfl), hread.trans hkept⟩
          | none =>
              rw [Get_not_provided hevnt hprov]
              refine factoryGet_kept ?_ h hbusy hevnt hprov
              intro t ht j u hj hu hevent hsame
              refine ih j u (by omega) hu ?_
              -- being called are `k` and those that were before
              intro i hi
              rw [hsame i, ht.busy i] at hi
              by_cases hik : i = k
              · rw [hik]
                exact hj
              · have hsi : (s.factories i).busy = true := by simpa [hik] using hi
                have := habove i hsi
                omega

/-- **The order of the requests does not matter**: whatever is asked for, in
whatever order and in however many events, is answered as the meaning says. -/
theorem answers_as_meant (meaning : Meaning callbacks use_factory) {depth : Nat}
    (hdepth : ∀ k, meaning.rank k < depth) (boundaries : Int32 → List UInt64)
    {s : JEventLoop O M} (hsound : Sound meaning s) (hidle : ∀ k, (s.factories k).busy = false)
    (requests : List (Request O)) :
    (execs callbacks boundaries depth s requests).map Prod.fst
      = some (meaning.answers s.event requests) := by
  induction requests generalizing s with
  | nil => rfl
  | cons request requests ih =>
      cases request with
      | newEvent event =>
          -- a new event leaves all factories without objects, and with the members they have
          have hreset : Sound meaning
              { event, factories := fun k => Reset (s.factories k), error_call_stack := [] } := by
            refine ⟨fun j => ?_, fun j _ => ?_⟩
            · show (Reset (s.factories j)).use_factory = _
              unfold Reset
              split
              · exact hsound.use_factory j
              · exact hsound.use_factory j
            · have hrest := hsound.at_rest j (hidle j)
              show AtRest meaning event j (Reset (s.factories j))
              unfold Reset
              rw [if_neg (by rw [hrest.persistant]; exact Bool.false_ne_true)]
              exact ⟨hrest.fit, hrest.ready, hrest.persistant, Bool.noConfusion,
                fun _ => Or.inl rfl⟩
          have hidle' : ∀ k, (Reset (s.factories k)).busy = false := by
            intro k
            unfold Reset
            split
            · exact hidle k
            · exact hidle k
          have hrest := ih hreset hidle'
          unfold execs
          show Option.map _ (Option.map _ (execs _ _ _ _ requests)) = _
          rw [Option.map_map]
          exact hrest
      | Get k =>
          -- a request is answered as meant, and the loop after it is sound again
          obtain ⟨s', hget, hkept⟩ := Get_kept boundaries depth k s (hdepth k) hsound
            (fun j hj => by rw [hidle j] at hj; cases hj)
          have hrest := ih hkept.sound (fun j => (hkept.busy j).trans (hidle j))
          rw [hkept.event] at hrest
          unfold execs
          show Option.map _ (Option.bind (Option.map _ (Get _ _ _ _ _)) _) = _
          rw [hget]
          show Option.map _ (Option.map _ (execs _ _ _ _ requests)) = _
          rw [Option.map_map]
          show Option.map ((_ :: ·) ∘ Prod.fst) _ = _
          rw [← Option.map_map, hrest]
          rfl

/-- What `pair` means where the factories do not ask the source: twice the one
object there is. -/
def pairMeaning (object : Nat) : Meaning (pair [object] false) (fun _ => true) where
  value _ k := some [if k then object else 2 * object]
  rank k := if k then 0 else 1
  Fit _ _ := True
  Ready _ _ _ := True
  fit _ := trivial
  init {k _} _ _ := by cases k <;> exact ⟨trivial, fun _ => ⟨rfl, rfl, trivial⟩⟩
  erun {k _} _ _ := by cases k <;> exact ⟨trivial, fun _ => ⟨rfl, rfl, trivial⟩⟩
  brun {k _} _ _ := by cases k <;> exact ⟨trivial, fun _ => ⟨rfl, rfl, trivial⟩⟩
  evnt {k _} _ _ _ := by
    cases k with
    | true => exact ⟨trivial, trivial, rfl⟩
    | false => exact ⟨⟨by decide, trivial⟩, trivial, rfl⟩
  source {k objects} _ h := by cases h

/-- The loop of the pair before the first event, in which no factory has
been called. -/
def pairStart : JEventLoop (fun _ : Bool => Nat) (fun _ => Unit) where
  event := ⟨0, 0, fun _ => none⟩
  factories := fun _ => { JFactory.new () with use_factory := true }
  error_call_stack := []

/-- The requests to the pair are answered as meant, before and after a new event,
whose source has objects that are not asked for. -/
theorem answers_as_meant_pair :
    (execs (pair [5] false) (fun _ => []) 2 pairStart
        [.Get true, .Get false, .newEvent ⟨1, 7, fun _ => some [8]⟩, .Get false, .Get true]).map
        Prod.fst
      = some [⟨true, .ok [5]⟩, ⟨false, .ok [10]⟩, ⟨false, .ok [10]⟩, ⟨true, .ok [5]⟩] := by
  refine answers_as_meant (pairMeaning 5) ?_ _ ⟨fun _ => rfl, fun _ _ => ?_⟩ (fun _ => rfl) _
  · decide
  · exact ⟨trivial, Bool.noConfusion, rfl, Bool.noConfusion, fun _ => Or.inl rfl⟩

end JEventLoop

end PokerReco.JANA
