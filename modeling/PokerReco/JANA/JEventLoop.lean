/-
  PokerReco.JANA.JEventLoop
  ─────────────────────────
  **ASKING FOR OBJECTS** (`JANA/JEventLoop.h`, `JANA/JFactory.h`,
  `JANA/JEvent.h`).

  Everything the reconstruction does is asked for.  A processor calls
  `loop->Get` for the objects of a factory, `Get` calls the `evnt` of the
  factory, which calls `loop->Get` for what it is made of, and so on down to
  the source of events.  What a factory has made stays with it until the next
  event.

  The callbacks of a factory are arbitrary here: a body may publish objects,
  change the members of its factory, ask for the objects of any factory (its
  own included), go on with what it gets or with the exception that it
  catches, and throw.

      requests_return      no call of `Get` runs forever
      objects_made_once    all who get objects of a factory in an event get
                           the same ones
      idle_after_requests  `busy` is down again where every exception is a
                           `std::exception`
      stays_busy           and never again where another one came through
-/
import Mathlib.Data.Finset.Card
import Mathlib.Data.Fintype.Card

namespace PokerReco.JANA

/-! ## §1. The callbacks. -/

/-- What is thrown out of a callback: a `std::exception`, or a number, as
`GetSingle` throws it. -/
inductive Thrown where
  | exception (what : String)
  | value (n : UInt64)
  deriving DecidableEq, Repr

/-- `throw e` where `e` is a `std::exception &`: a copy of the base class is
thrown, and its `what` is not the one of the object that was caught. -/
def Thrown.rethrown : Thrown → Thrown
  | .exception _ => .exception "std::exception"
  | .value n => .value n

/-- The body of a callback of a factory with the members `M` that publishes
objects of the type `T`; the factory `j` has objects of the type `O j`. -/
inductive Body (K : Type) (O : K → Type) (M T : Type) where
  | ret (members : M)
  | throw (e : Thrown) (members : M)
  /-- `_data.push_back(obj)` -/
  | push_back (obj : T) (next : Body K O M T)
  /-- `_data.clear()` -/
  | clear (next : Body K O M T)
  /-- `SetFactoryFlag(PERSISTANT)` -/
  | SetFactoryFlag (next : Body K O M T)
  /-- `loop->Get` of the factory `j`, with all that the body does after it. -/
  | Get (j : K) (next : Except Thrown (List (O j)) → Body K O M T)

/-- `loop->GetSingle`: the one object, or else the number of objects is thrown
and nobody catches it. -/
def Body.GetSingle {K : Type} {O : K → Type} {M T : Type} (j : K) (members : M)
    (next : O j → Body K O M T) : Body K O M T :=
  .Get j fun
    | .ok [t] => next t
    | .ok v => .throw (.value v.length.toUInt64) members
    | .error e => .throw e members

/-- Only a `std::exception` is thrown, if nothing else comes up from below. -/
def Body.Std {K : Type} {O : K → Type} {M T : Type} : Body K O M T → Prop
  | .ret _ => True
  | .throw e _ => ∃ what, e = .exception what
  | .push_back _ next => next.Std
  | .clear next => next.Std
  | .SetFactoryFlag next => next.Std
  | .Get _ next => ∀ result, (∀ n, result ≠ .error (.value n)) → (next result).Std

/-- The virtual functions of a factory; the callbacks are functions of its
members. -/
structure Callbacks (K : Type) (O : K → Type) (M T : Type) where
  GetDataClassName : String
  Tag : String
  init : M → Body K O M T
  erun : M → Body K O M T
  brun : Int32 → M → Body K O M T
  evnt : UInt64 → M → Body K O M T

/-- None of the callbacks throws anything but a `std::exception`, whatever objects
it is given. -/
structure Callbacks.Std {K : Type} {O : K → Type} {M T : Type} (c : Callbacks K O M T) : Prop where
  init : ∀ members, (c.init members).Std
  erun : ∀ members, (c.erun members).Std
  brun : ∀ run_number members, (c.brun run_number members).Std
  evnt : ∀ event_number members, (c.evnt event_number members).Std

/-- `JFactory` with its flags, the objects of the event and the calls counted;
`busy` is 0 or 1. -/
structure JFactory (M T : Type) where
  members : M
  _data : List T
  use_factory : Bool
  persistant : Bool
  busy : Bool
  init_called : Bool
  brun_called : Bool
  erun_called : Bool
  evnt_called : Bool
  brun_runnumber : Int32
  brun_eventnumber : UInt64
  Ncalls_to_Get : Nat
  Ncalls_to_evnt : Nat

/-- A factory as the constructors leave it: nothing called yet, no objects, and
the members of the derived class. -/
def JFactory.new {M T : Type} (members : M) : JFactory M T where
  members := members
  _data := []
  use_factory := false
  persistant := false
  busy := false
  init_called := false
  brun_called := false
  erun_called := false
  evnt_called := false
  brun_runnumber := -1
  brun_eventnumber := 0
  Ncalls_to_Get := 0
  Ncalls_to_evnt := 0

/-- `JEvent` and what its source hands over for each factory; none is
`OBJECT_NOT_AVAILABLE`. -/
structure JEvent {K : Type} (O : K → Type) where
  event_number : UInt64
  run_number : Int32
  GetObjects : (k : K) → Option (List (O k))

/-- `JEventLoop`: the current event, the factories, and the names and tags that
exceptions went through. -/
structure JEventLoop {K : Type} (O M : K → Type) where
  event : JEvent O
  factories : (k : K) → JFactory (M k) (O k)
  error_call_stack : List (String × String)

/-- `CheckEventBoundary`: does one of the boundaries lie at the first event?  The
product is of unsigned numbers and never below 0, so that a boundary between the
two is not found. -/
def CheckEventBoundary (event_boundaries : List UInt64) (event_numberA event_numberB : UInt64) :
    Bool :=
  event_boundaries.any fun eb =>
    decide (((eb - event_numberA) * (eb - event_numberB)).toNat < 0) || eb == event_numberA

namespace JEventLoop

variable {K : Type} {O M : K → Type} [DecidableEq K]

/-! ## §2. `Get`. -/

/-- Change the members of one factory. -/
def modify (s : JEventLoop O M) (k : K) (g : JFactory (M k) (O k) → JFactory (M k) (O k)) :
    JEventLoop O M :=
  { s with factories := Function.update s.factories k (g (s.factories k)) }

/-- What a call leads to: what it returns or throws, and the loop after it;
none where the calls are nested deeper than the stack. -/
abbrev Result (O M : K → Type) (T : Type) : Type := Option (Except Thrown T × JEventLoop O M)

/-- A callback of the factory `k`, when `Get` is what its body asks with. -/
def runBody (Get : (j : K) → JEventLoop O M → Result O M (List (O j))) (k : K) :
    Body K O (M k) (O k) → JEventLoop O M → Result O M Unit
  | .ret members, s => some (.ok (), s.modify k ({ · with members := members }))
  | .throw e members, s => some (.error e, s.modify k ({ · with members := members }))
  | .push_back obj next, s =>
      runBody Get k next (s.modify k fun f => { f with _data := f._data ++ [obj] })
  | .clear next, s => runBody Get k next (s.modify k ({ · with _data := [] }))
  | .SetFactoryFlag next, s => runBody Get k next (s.modify k ({ · with persistant := true }))
  | .Get j next, s => (Get j s).bind fun result => runBody Get k (next result.1) result.2

/-- `CopyFrom`: the objects that the factory has are handed out, and the call
is counted. -/
def CopyFrom (s : JEventLoop O M) (k : K) : Except Thrown (List (O k)) × JEventLoop O M :=
  (.ok (s.factories k)._data,
    s.modify k fun f => { f with Ncalls_to_Get := f.Ncalls_to_Get + 1 })

variable (callbacks : (k : K) → Callbacks K O (M k) (O k)) (boundaries : Int32 → List UInt64)

/-- `AddToErrorCallStack`: the name and the tag of the factory are put behind the
others, with what follows the tag. -/
def AddToErrorCallStack (s : JEventLoop O M) (k : K) (stage : String) : JEventLoop O M :=
  { s with
    error_call_stack :=
      s.error_call_stack ++ [((callbacks k).GetDataClassName, (callbacks k).Tag ++ stage)] }

/-- The `catch(std::exception &e)` around a callback: it clears `busy`. -/
def caught (s : JEventLoop O M) (k : K) (stage : String) : Thrown → JEventLoop O M
  | .exception _ => (s.AddToErrorCallStack callbacks k stage).modify k ({ · with busy := false })
  | .value _ => s

/-- A callback in its `try`, and what follows it: where the callback throws, the
`catch` is run instead of what follows. -/
def guarded {T : Type} (k : K) (stage : String) (result : Result O M Unit)
    (next : JEventLoop O M → Result O M T) : Result O M T :=
  result.bind fun
    | (.ok (), s) => next s
    | (.error e, s) => some (.error e.rethrown, s.caught callbacks k stage e)

/-- `init` is called the first time that objects of the factory are asked for,
before any other callback. -/
def callInit (Get : (j : K) → JEventLoop O M → Result O M (List (O j))) (k : K)
    (s : JEventLoop O M) : Result O M Unit :=
  if (s.factories k).init_called then some (.ok (), s)
  else runBody Get k ((callbacks k).init (s.factories k).members) s

/-- `erun` is called once when the run of the event is another than that of the
last `brun`. -/
def callErun (Get : (j : K) → JEventLoop O M → Result O M (List (O j))) (k : K)
    (s : JEventLoop O M) : Result O M Unit :=
  if s.event.run_number ≠ (s.factories k).brun_runnumber
      ∧ (s.factories k).brun_called ∧ !(s.factories k).erun_called then
    runBody Get k ((callbacks k).erun (s.factories k).members) s
  else some (.ok (), s)

/-- What is noted once `erun` has been called, and whether `brun` has to be called
again for the new run. -/
def afterErun (s : JEventLoop O M) (k : K) : JEventLoop O M :=
  s.modify k fun f =>
    let f :=
      if s.event.run_number ≠ f.brun_runnumber then
        { f with erun_called := f.erun_called || f.brun_called, brun_called := false }
      else f
    if f.brun_called && CheckEventBoundary (boundaries s.event.run_number) s.event.event_number
        f.brun_eventnumber then
      { f with brun_called := false }
    else f

/-- `brun` is called unless it was called already for this run and this side of
the event boundaries. -/
def callBrun (Get : (j : K) → JEventLoop O M → Result O M (List (O j))) (k : K)
    (s : JEventLoop O M) : Result O M Unit :=
  if (s.factories k).brun_called then some (.ok (), s)
  else runBody Get k ((callbacks k).brun s.event.run_number (s.factories k).members) s

/-- What is noted once `brun` has been called: the run and the event that it was
called for. -/
def afterBrun (s : JEventLoop O M) (k : K) : JEventLoop O M :=
  s.modify k fun f =>
    if f.brun_called then f
    else
      { f with
        brun_called := true
        erun_called := false
        brun_runnumber := s.event.run_number
        brun_eventnumber := s.event.event_number }

/-- `evnt` is called last, with the number of the event; it is what makes
the objects. -/
def callEvnt (Get : (j : K) → JEventLoop O M → Result O M (List (O j))) (k : K)
    (s : JEventLoop O M) : Result O M Unit :=
  let s := s.modify k fun f => { f with Ncalls_to_evnt := f.Ncalls_to_evnt + 1 }
  runBody Get k ((callbacks k).evnt s.event.event_number (s.factories k).members) s

/-- The message for a factory that is asked for its objects while it is
being called. -/
def infiniteRecursion (k : K) : Thrown :=
  .exception ("Infinite recursion detected in JFactory<T>::Get for "
    ++ (callbacks k).GetDataClassName ++ ":" ++ (callbacks k).Tag)

/-- `JFactory::Get`, when `Get` is what the callbacks ask with: the objects that
are there, or else the callbacks in their order and then the objects. -/
def factoryGet (Get : (j : K) → JEventLoop O M → Result O M (List (O j))) (k : K)
    (s : JEventLoop O M) : Result O M (List (O k)) :=
  if (s.factories k).evnt_called then some (s.CopyFrom k)
  else if (s.factories k).busy then some (.error (infiniteRecursion callbacks k), s)
  else
    guarded callbacks k " (init)"
      (callInit callbacks Get k (s.modify k ({ · with busy := true }))) fun s =>
    guarded callbacks k " (erun)"
      (callErun callbacks Get k (s.modify k ({ · with init_called := true }))) fun s =>
    guarded callbacks k " (brun)" (callBrun callbacks Get k (s.afterErun boundaries k)) fun s =>
    guarded callbacks k " (evnt)" (callEvnt callbacks Get k (s.afterBrun k)) fun s =>
    let result := s.CopyFrom k
    some (result.1, result.2.modify k ({ · with evnt_called := true, busy := false }))

/-- The `catch(exception &e)` in `JEventLoop::Get`: the name of the factory is
noted, and the exception goes on up. -/
def rethrow (k : K) {T : Type} : Except Thrown T × JEventLoop O M → Except Thrown T × JEventLoop O M
  | (.error (.exception what), s) =>
      (.error (Thrown.exception what).rethrown, s.AddToErrorCallStack callbacks k "")
  | result => result

/-- `JEventLoop::Get`, with a stack for calls nested `depth` deep: what is
there, then the source, then the factory. -/
def Get : Nat → (k : K) → JEventLoop O M → Result O M (List (O k))
  | 0, _, _ => none
  | depth + 1, k, s =>
      if (s.factories k).evnt_called then some (s.CopyFrom k)
      else
        match if (s.factories k).use_factory then none else s.event.GetObjects k with
        | some objects =>
            -- `CopyTo` by the source
            some ((s.modify k ({ · with _data := objects, evnt_called := true })).CopyFrom k)
        | none => (factoryGet callbacks boundaries (Get depth) k s).map (rethrow callbacks k)

/-! ## §3. Events and requests. -/

/-- `JFactory::Reset`: the objects of the event are dropped, and `evnt` has to be
called again. -/
def Reset {M T : Type} (f : JFactory M T) : JFactory M T :=
  if f.persistant then f else { f with _data := [], evnt_called := false }

/-- What drives the loop: a new event, for which `OneEvent` resets all factories
and clears the names, or somebody asking for the objects of a factory. -/
inductive Request (O : K → Type) where
  | newEvent (event : JEvent O)
  | Get (k : K)

/-- A request of the loop is run; what was asked for is told with the factory it
is of, and a new event tells nothing. -/
def exec (depth : Nat) (s : JEventLoop O M) :
    Request O → Option (List ((k : K) × Except Thrown (List (O k))) × JEventLoop O M)
  | .newEvent event =>
      some ([], { event, factories := fun k => Reset (s.factories k), error_call_stack := [] })
  | .Get k => (Get callbacks boundaries depth k s).map fun result => ([⟨k, result.1⟩], result.2)

/-- The requests are run one after the other, each from the loop that the one
before left, and all answers are told in order. -/
def execs (depth : Nat) : JEventLoop O M → List (Request O) →
    Option (List ((k : K) × Except Thrown (List (O k))) × JEventLoop O M)
  | s, [] => some ([], s)
  | s, request :: requests =>
      (exec callbacks boundaries depth s request).bind fun first =>
        (execs depth first.2 requests).map fun rest => (first.1 ++ rest.1, rest.2)

variable {callbacks : (k : K) → Callbacks K O (M k) (O k)} {boundaries : Int32 → List UInt64}

/-! ## §4. What a call keeps. -/

/-- A change of one factory leaves the event. -/
@[simp] theorem modify_event (s : JEventLoop O M) (k : K)
    (g : JFactory (M k) (O k) → JFactory (M k) (O k)) : (s.modify k g).event = s.event := rfl

/-- The factory that is changed is the one before with the change. -/
@[simp] theorem modify_factories_self (s : JEventLoop O M) (k : K)
    (g : JFactory (M k) (O k) → JFactory (M k) (O k)) :
    (s.modify k g).factories k = g (s.factories k) := by
  simp [modify]

/-- A change of one factory leaves all others. -/
theorem modify_factories_of_ne (s : JEventLoop O M) {j k : K} (h : j ≠ k)
    (g : JFactory (M k) (O k) → JFactory (M k) (O k)) :
    (s.modify k g).factories j = s.factories j := by
  simp [modify, h]

/-- After `CopyFrom` the factory has one call more in its count. -/
@[simp] theorem CopyFrom_factories_self (s : JEventLoop O M) (k : K) :
    (s.CopyFrom k).2.factories k
      = { s.factories k with Ncalls_to_Get := (s.factories k).Ncalls_to_Get + 1 } := by
  unfold CopyFrom
  rw [modify_factories_self]

/-- `CopyFrom` leaves all other factories. -/
theorem CopyFrom_factories_of_ne (s : JEventLoop O M) {j k : K} (h : j ≠ k) :
    (s.CopyFrom k).2.factories j = s.factories j := by
  unfold CopyFrom
  rw [modify_factories_of_ne s h]

/-- The `catch` of `JFactory::Get` clears `busy` of the factory that the exception
came from. -/
@[simp] theorem caught_factories_self (s : JEventLoop O M) (k : K) (stage what : String) :
    (s.caught callbacks k stage (.exception what)).factories k
      = { s.factories k with busy := false } := by
  unfold caught
  rw [modify_factories_self]
  rfl

/-- The `catch` of `JFactory::Get` leaves all other factories. -/
theorem caught_factories_of_ne (s : JEventLoop O M) {j k : K} (h : j ≠ k) (stage what : String) :
    (s.caught callbacks k stage (.exception what)).factories j = s.factories j := by
  unfold caught
  rw [modify_factories_of_ne _ h]
  rfl

/-- What the source hands over for a factory that asks it. -/
def provided (s : JEventLoop O M) (k : K) : Option (List (O k)) :=
  if (s.factories k).use_factory then none else s.event.GetObjects k

/-- Where the source has the objects of a factory, they are handed over and the
callbacks are not called. -/
theorem Get_provided {depth : Nat} {s : JEventLoop O M} {k : K} {objects : List (O k)}
    (hevnt : (s.factories k).evnt_called = false) (hprov : s.provided k = some objects) :
    Get callbacks boundaries (depth + 1) k s
      = some ((s.modify k ({ · with _data := objects, evnt_called := true })).CopyFrom k) := by
  unfold provided at hprov
  unfold JEventLoop.Get
  rw [hevnt, if_neg Bool.false_ne_true, hprov]

/-- Where the source has no objects of a factory, `JFactory::Get` has to
make them. -/
theorem Get_not_provided {depth : Nat} {s : JEventLoop O M} {k : K}
    (hevnt : (s.factories k).evnt_called = false) (hprov : s.provided k = none) :
    Get callbacks boundaries (depth + 1) k s
      = (factoryGet callbacks boundaries (Get callbacks boundaries depth) k s).map
          (rethrow callbacks k) := by
  unfold provided at hprov
  conv_lhs => unfold JEventLoop.Get
  rw [hevnt, if_neg Bool.false_ne_true, hprov]

/-- Nothing but the count of its calls differs between the two factories. -/
def Same {M T : Type} (f f' : JFactory M T) : Prop :=
  f' = { f with Ncalls_to_Get := f'.Ncalls_to_Get }

/-- The factory has made its objects, or is being called for them. -/
def Fixed (s : JEventLoop O M) (k : K) : Prop :=
  (s.factories k).evnt_called = true ∨ ((s.factories k).busy = true ∧ s.provided k = none)

/-- What a call leaves alone.  `clean` says that no exception but a
`std::exception` is thrown. -/
structure Frame (clean : Prop) (s s' : JEventLoop O M) : Prop where
  event : s'.event = s.event
  use_factory : ∀ j, (s'.factories j).use_factory = (s.factories j).use_factory
  fixed : ∀ j, s.Fixed j → Same (s.factories j) (s'.factories j)
  busy : ∀ j, (s.factories j).busy = true → (s'.factories j).busy = true
  idle : clean → ∀ j, (s'.factories j).busy = (s.factories j).busy

/-- What is known while the factory `k` is being called; `s` is the loop before
it. -/
structure During (clean : Prop) (k : K) (s t : JEventLoop O M) : Prop where
  event : t.event = s.event
  use_factory : ∀ j, (t.factories j).use_factory = (s.factories j).use_factory
  fixed : ∀ j, j ≠ k → s.Fixed j → Same (s.factories j) (t.factories j)
  busy : ∀ j, j ≠ k → (s.factories j).busy = true → (t.factories j).busy = true
  idle : clean → ∀ j, j ≠ k → (t.factories j).busy = (s.factories j).busy
  itself : (t.factories k).busy = true ∧ (t.factories k).evnt_called = false

/-- Every factory is the same as itself. -/
theorem Same.refl {M T : Type} (f : JFactory M T) : Same f f := rfl

/-- The count may change twice, and nothing else did. -/
theorem Same.trans {M T : Type} {f g h : JFactory M T} (hfg : Same f g) (hgh : Same g h) :
    Same f h := by
  unfold Same at *
  rw [hgh, hfg]

/-- Of two factories that are the same, both have made their objects or none has. -/
theorem Same.evnt_called {M T : Type} {f g : JFactory M T} (h : Same f g) :
    g.evnt_called = f.evnt_called := by rw [h]

/-- Of two factories that are the same, both are being called or none is. -/
theorem Same.busy {M T : Type} {f g : JFactory M T} (h : Same f g) : g.busy = f.busy := by rw [h]

/-- Two factories that are the same have the same objects. -/
theorem Same.data {M T : Type} {f g : JFactory M T} (h : Same f g) : g._data = f._data := by rw [h]

variable {clean : Prop} {k : K} {s t t' : JEventLoop O M}

omit [DecidableEq K] in
/-- What the source hands over depends on the event and on the factory's wish
to be asked. -/
theorem provided_congr {j : K} (hevent : t.event = s.event)
    (huse : (t.factories j).use_factory = (s.factories j).use_factory) :
    t.provided j = s.provided j := by
  unfold provided
  rw [hevent, huse]

omit [DecidableEq K] in
/-- A factory that has made its objects, or is being called, stays so
through a call. -/
theorem Frame.fixed_of (h : Frame clean s t) {j : K} (hj : s.Fixed j) : t.Fixed j := by
  have hsame := h.fixed j hj
  unfold Fixed
  rw [hsame.evnt_called, hsame.busy, provided_congr h.event (h.use_factory j)]
  exact hj

omit [DecidableEq K] in
/-- The same of a factory other than `k` while `k` is being called. -/
theorem During.fixed_of (h : During clean k s t) {j : K} (hjk : j ≠ k) (hj : s.Fixed j) :
    t.Fixed j := by
  have hsame := h.fixed j hjk hj
  unfold Fixed
  rw [hsame.evnt_called, hsame.busy, provided_congr h.event (h.use_factory j)]
  exact hj

omit [DecidableEq K] in
/-- Two calls, one after the other, leave alone what both leave alone. -/
theorem Frame.trans {u : JEventLoop O M} (h : Frame clean s t) (h' : Frame clean t u) :
    Frame clean s u where
  event := h'.event.trans h.event
  use_factory j := (h'.use_factory j).trans (h.use_factory j)
  fixed j hj := (h.fixed j hj).trans (h'.fixed j (h.fixed_of hj))
  busy j hj := h'.busy j (h.busy j hj)
  idle hc j := (h'.idle hc j).trans (h.idle hc j)

omit [DecidableEq K] in
/-- While `k` is being called it asks for another factory, and what is known of
the call of `k` stays known. -/
theorem During.call (hprov : s.provided k = none) (h : During clean k s t)
    (h' : Frame clean t t') : During clean k s t' := by
  have hk : t.Fixed k :=
    Or.inr ⟨h.itself.1, (provided_congr h.event (h.use_factory k)).trans hprov⟩
  have hsame := h'.fixed k hk
  exact
    { event := h'.event.trans h.event
      use_factory := fun j => (h'.use_factory j).trans (h.use_factory j)
      fixed := fun j hjk hj => (h.fixed j hjk hj).trans (h'.fixed j (h.fixed_of hjk hj))
      busy := fun j hjk hj => h'.busy j (h.busy j hjk hj)
      idle := fun hc j hjk => (h'.idle hc j).trans (h.idle hc j hjk)
      itself := by rw [hsame.busy, hsame.evnt_called]; exact h.itself }

/-- While `k` is being called it changes its own members, as long as it leaves the
flags of `JFactory`. -/
theorem During.modify (h : During clean k s t) {g : JFactory (M k) (O k) → JFactory (M k) (O k)}
    (huse : ∀ f, (g f).use_factory = f.use_factory) (hbusy : ∀ f, (g f).busy = f.busy)
    (hevnt : ∀ f, (g f).evnt_called = f.evnt_called) : During clean k s (t.modify k g) where
  event := h.event
  use_factory j := by
    by_cases hjk : j = k
    · subst hjk
      rw [modify_factories_self, huse]
      exact h.use_factory j
    · rw [modify_factories_of_ne _ hjk]
      exact h.use_factory j
  fixed j hjk := by
    rw [modify_factories_of_ne _ hjk]
    exact h.fixed j hjk
  busy j hjk := by
    rw [modify_factories_of_ne _ hjk]
    exact h.busy j hjk
  idle hc j hjk := by
    rw [modify_factories_of_ne _ hjk]
    exact h.idle hc j hjk
  itself := by
    rw [modify_factories_self, hbusy, hevnt]
    exact h.itself

/-- With `busy++` the call of `k` begins. -/
theorem During.start (hevnt : (s.factories k).evnt_called = false) :
    During clean k s (s.modify k ({ · with busy := true })) where
  event := rfl
  use_factory j := by
    by_cases hjk : j = k
    · subst hjk
      rw [modify_factories_self]
    · rw [modify_factories_of_ne _ hjk]
  fixed j hjk _ := by
    rw [modify_factories_of_ne _ hjk]
    exact Same.refl _
  busy j hjk hj := by
    rw [modify_factories_of_ne _ hjk]
    exact hj
  idle _ j hjk := by rw [modify_factories_of_ne _ hjk]
  itself := by
    rw [modify_factories_self]
    exact ⟨rfl, hevnt⟩

/-- The end of the call of `k`: `busy` is cleared, or stays set where a number was
thrown, and all else is as the frame says. -/
theorem During.leave (h : During clean k s t) (hbusy : (s.factories k).busy = false)
    (hevnt : (s.factories k).evnt_called = false) (hevent : t'.event = t.event)
    (hothers : ∀ j, j ≠ k → t'.factories j = t.factories j)
    (huse : (t'.factories k).use_factory = (t.factories k).use_factory)
    (hidle : clean → (t'.factories k).busy = false) : Frame clean s t' where
  event := hevent.trans h.event
  use_factory j := by
    by_cases hjk : j = k
    · subst hjk
      exact huse.trans (h.use_factory j)
    · rw [hothers j hjk]
      exact h.use_factory j
  fixed j hj := by
    by_cases hjk : j = k
    · subst hjk
      unfold Fixed at hj
      rw [hbusy, hevnt] at hj
      simp at hj
    · rw [hothers j hjk]
      exact h.fixed j hjk hj
  busy j hj := by
    by_cases hjk : j = k
    · subst hjk
      rw [hbusy] at hj
      cases hj
    · rw [hothers j hjk]
      exact h.busy j hjk hj
  idle hc j := by
    by_cases hjk : j = k
    · subst hjk
      rw [hidle hc, hbusy]
    · rw [hothers j hjk]
      exact h.idle hc j hjk

/-! ## §5. Every call answers. -/

/-- The call returns or throws, and then `P` holds. -/
def Answers {T : Type} (result : Result O M T) (P : Except Thrown T → JEventLoop O M → Prop) :
    Prop :=
  ∃ out s', result = some (out, s') ∧ P out s'

/-- A callback in its `try` answers where the callback does: its `catch` and what
follows it have to establish the result. -/
theorem guarded_answers {T : Type} {stage : String} {result : Result O M Unit}
    {next : JEventLoop O M → Result O M T}
    {P : Except Thrown Unit → JEventLoop O M → Prop} {Q : Except Thrown T → JEventLoop O M → Prop}
    (h : Answers result P) (hok : ∀ s', P (.ok ()) s' → Answers (next s') Q)
    (herror : ∀ e s', P (.error e) s' → Q (.error e.rethrown) (s'.caught callbacks k stage e)) :
    Answers (guarded callbacks k stage result next) Q := by
  obtain ⟨out, s', hresult, hP⟩ := h
  unfold guarded
  rw [hresult]
  cases out with
  | ok u => exact hok s' hP
  | error e => exact ⟨_, _, rfl, herror e s' hP⟩

/-- **A body** keeps what its own steps and the calls it makes keep. -/
theorem runBody_answers {Get : (j : K) → JEventLoop O M → Result O M (List (O j))}
    (Inv : JEventLoop O M → Prop)
    (hmembers : ∀ t members, Inv t → Inv (t.modify k ({ · with members := members })))
    (hdata : ∀ t (change : List (O k) → List (O k)), Inv t →
      Inv (t.modify k fun f => { f with _data := change f._data }))
    (hflag : ∀ t, Inv t → Inv (t.modify k ({ · with persistant := true })))
    (hcall : ∀ j t, Inv t →
      Answers (Get j t) fun out t' => Inv t' ∧ (clean → ∀ n, out ≠ .error (.value n)))
    (body : Body K O (M k) (O k)) (hstd : clean → body.Std) {s : JEventLoop O M} (hs : Inv s) :
    Answers (runBody Get k body s) fun out s' =>
      Inv s' ∧ (clean → ∀ n, out ≠ .error (.value n)) := by
  induction body generalizing s with
  | ret members =>
      refine ⟨_, _, rfl, hmembers s members hs, fun _ n h => ?_⟩
      cases h
  | throw e members =>
      refine ⟨_, _, rfl, hmembers s members hs, fun hc n h => ?_⟩
      obtain ⟨what, hwhat⟩ := hstd hc
      rw [hwhat] at h
      cases h
  | push_back obj next ih => exact ih hstd (hdata s (· ++ [obj]) hs)
  | clear next ih => exact ih hstd (hdata s (fun _ => []) hs)
  | SetFactoryFlag next ih => exact ih hstd (hflag s hs)
  | Get j next ih =>
      obtain ⟨out, s', hout, hs', hvalue⟩ := hcall j s hs
      unfold runBody
      rw [hout]
      exact ih out (fun hc => hstd hc out (hvalue hc)) hs'

section Answers

variable [Fintype K]

/-- The factories that are not being called, of which each nested call
makes one less. -/
def idle (s : JEventLoop O M) : Finset K :=
  Finset.univ.filter fun j => (s.factories j).busy = false

omit [DecidableEq K] in
/-- While a factory is being called, fewer factories than before are idle. -/
theorem During.idle_card (h : During clean k s t) (hbusy : (s.factories k).busy = false) :
    t.idle.card < s.idle.card := by
  refine Finset.card_lt_card ((Finset.ssubset_iff_of_subset ?_).mpr ⟨k, ?_, ?_⟩)
  · intro j hj
    have htj : (t.factories j).busy = false := (Finset.mem_filter.mp hj).2
    refine Finset.mem_filter.mpr ⟨Finset.mem_univ j, ?_⟩
    cases hsj : (s.factories j).busy with
    | false => rfl
    | true =>
        by_cases hjk : j = k
        · rw [hjk, hbusy] at hsj
          cases hsj
        · rw [h.busy j hjk hsj] at htj
          cases htj
  · exact Finset.mem_filter.mpr ⟨Finset.mem_univ k, hbusy⟩
  · intro hk
    have htk : (t.factories k).busy = false := (Finset.mem_filter.mp hk).2
    rw [h.itself.1] at htk
    cases htk

/-- What is known of a call of `Get`. -/
structure Answered (clean : Prop) (k : K) (s : JEventLoop O M)
    (out : Except Thrown (List (O k))) (s' : JEventLoop O M) : Prop where
  frame : Frame clean s s'
  ok : ∀ objects, out = .ok objects →
    (s'.factories k).evnt_called = true ∧ (s'.factories k)._data = objects
  std : clean → ∀ n, out ≠ .error (.value n)
  value : ∀ n, out = .error (.value n) → s.provided k = none ∧ (s'.factories k).busy = true
    ∧ (s'.factories k).evnt_called = false

omit [Fintype K] in
/-- `CopyFrom` leaves everything alone but the count of the calls. -/
theorem frame_copyFrom (s : JEventLoop O M) (k : K) : Frame clean s (s.CopyFrom k).2 where
  event := rfl
  use_factory j := by
    by_cases hjk : j = k
    · subst hjk
      simp [CopyFrom]
    · simp [CopyFrom, modify_factories_of_ne _ hjk]
  fixed j _ := by
    by_cases hjk : j = k
    · subst hjk
      simp [CopyFrom, Same]
    · simp [CopyFrom, modify_factories_of_ne _ hjk, Same]
  busy j hj := by
    by_cases hjk : j = k
    · subst hjk
      simpa [CopyFrom] using hj
    · simpa [CopyFrom, modify_factories_of_ne _ hjk] using hj
  idle _ j := by
    by_cases hjk : j = k
    · subst hjk
      simp [CopyFrom]
    · simp [CopyFrom, modify_factories_of_ne _ hjk]

omit [Fintype K] in
/-- A request for objects that are there is answered with them. -/
theorem answered_copyFrom (h : (s.factories k).evnt_called = true) :
    Answered clean k s (s.CopyFrom k).1 (s.CopyFrom k).2 where
  frame := frame_copyFrom s k
  ok objects hout := by
    refine ⟨?_, ?_⟩
    · simpa [CopyFrom] using h
    · simpa [CopyFrom] using hout
  std _ n hout := by cases hout
  value n hout := by cases hout

omit [Fintype K] in
/-- A request for objects that the source has is answered with them, and the
factory keeps them. -/
theorem answered_source {objects : List (O k)} (hevnt : (s.factories k).evnt_called = false)
    (hprov : s.provided k = some objects) {s₁ : JEventLoop O M}
    (hs₁ : s₁ = s.modify k ({ · with _data := objects, evnt_called := true })) :
    Answered clean k s (s₁.CopyFrom k).1 (s₁.CopyFrom k).2 := by
  have hframe : Frame clean s s₁ := by
    rw [hs₁]
    refine ⟨rfl, fun j => ?_, fun j hj => ?_, fun j hj => ?_, fun _ j => ?_⟩
    · by_cases hjk : j = k
      · subst hjk
        simp
      · rw [modify_factories_of_ne _ hjk]
    · -- a factory with objects in the source is not fixed before they are read
      by_cases hjk : j = k
      · subst hjk
        unfold Fixed at hj
        rw [hevnt, hprov] at hj
        simp at hj
      · rw [modify_factories_of_ne _ hjk]
        exact Same.refl _
    · by_cases hjk : j = k
      · subst hjk
        simpa using hj
      · rw [modify_factories_of_ne _ hjk]
        exact hj
    · by_cases hjk : j = k
      · subst hjk
        simp
      · rw [modify_factories_of_ne _ hjk]
  have hcalled : (s₁.factories k).evnt_called = true := by simp [hs₁]
  have hcopy : Answered clean k s₁ (s₁.CopyFrom k).1 (s₁.CopyFrom k).2 :=
    answered_copyFrom hcalled
  exact
    { frame := hframe.trans hcopy.frame
      ok := hcopy.ok
      std := hcopy.std
      value := fun n hout => by cases hout }

/-- What is known when a callback of `k` returns or throws: the call of `k` is
still going on, and where all is clean no number is thrown. -/
def Called (clean : Prop) (k : K) (s : JEventLoop O M) (out : Except Thrown Unit)
    (t : JEventLoop O M) : Prop :=
  During clean k s t ∧ (clean → ∀ n, out ≠ .error (.value n))

omit [Fintype K] in
/-- **A callback** of `k`, when all calls it makes answer. -/
theorem callback_answers {Get : (j : K) → JEventLoop O M → Result O M (List (O j))}
    (hprov : s.provided k = none)
    (hcall : ∀ j t, During clean k s t → Answers (Get j t) (Answered clean j t))
    (body : Body K O (M k) (O k)) (hstd : clean → body.Std) (ht : During clean k s t) :
    Answers (runBody Get k body t) (Called clean k s) := by
  refine runBody_answers (During clean k s) ?_ ?_ ?_ ?_ body hstd ht
  · intro u members hu
    exact hu.modify (fun _ => rfl) (fun _ => rfl) (fun _ => rfl)
  · intro u change hu
    exact hu.modify (fun _ => rfl) (fun _ => rfl) (fun _ => rfl)
  · intro u hu
    exact hu.modify (fun _ => rfl) (fun _ => rfl) (fun _ => rfl)
  · intro j u hu
    obtain ⟨out, u', hout, hanswered⟩ := hcall j u hu
    exact ⟨out, u', hout, hu.call hprov hanswered.frame, hanswered.std⟩

omit [Fintype K] in
/-- An exception out of a callback is the answer to the request: where it is a
`std::exception`, the factory is idle again. -/
theorem answered_caught (hprov : s.provided k = none) (hbusy : (s.factories k).busy = false)
    (hevnt : (s.factories k).evnt_called = false) (stage : String) (e : Thrown)
    (t : JEventLoop O M) (h : Called clean k s (.error e) t) :
    Answered clean k s (.error e.rethrown) (t.caught callbacks k stage e) := by
  obtain ⟨hduring, hstd⟩ := h
  cases e with
  | exception what =>
      refine ⟨hduring.leave hbusy hevnt rfl ?_ ?_ ?_, ?_, ?_, ?_⟩
      · intro j hjk
        exact caught_factories_of_ne t hjk stage what
      · rw [caught_factories_self]
      · intro _
        rw [caught_factories_self]
      · intro objects hout
        cases hout
      · intro _ n hout
        cases hout
      · intro n hout
        cases hout
  | value n =>
      -- nobody clears `busy`
      refine ⟨hduring.leave hbusy hevnt rfl (fun _ _ => rfl) rfl ?_, ?_, ?_, ?_⟩
      · intro hc
        exact absurd rfl (hstd hc n)
      · intro objects hout
        cases hout
      · intro hc m
        exact absurd rfl (hstd hc n)
      · intro m _
        exact ⟨hprov, hduring.itself⟩

omit [Fintype K] [DecidableEq K] in
/-- The `catch` of `JEventLoop::Get` changes no factory. -/
theorem answered_rethrow {out : Except Thrown (List (O k))} (h : Answered clean k s out t) :
    Answered clean k s (rethrow callbacks k (out, t)).1 (rethrow callbacks k (out, t)).2 := by
  cases out with
  | ok objects => exact h
  | error e =>
      cases e with
      | value n => exact h
      | exception what =>
          have hframe : Frame clean s (t.AddToErrorCallStack callbacks k "") :=
            ⟨h.frame.event, h.frame.use_factory, h.frame.fixed, h.frame.busy, h.frame.idle⟩
          refine ⟨hframe, ?_, ?_, ?_⟩
          · intro objects hout
            cases hout
          · intro _ n hout
            cases hout
          · intro n hout
            cases hout

omit [Fintype K] [DecidableEq K] in
/-- A factory that is being called is not called again: the request is answered
with an exception and nothing changes. -/
theorem answered_recursion (e : Thrown) (he : ∃ what, e = .exception what) :
    Answered clean k s (.error e) s := by
  obtain ⟨what, rfl⟩ := he
  refine ⟨⟨rfl, fun _ => rfl, fun j _ => Same.refl _, fun _ hj => hj, fun _ _ => rfl⟩, ?_, ?_, ?_⟩
  · intro objects hout
    cases hout
  · intro _ n hout
    cases hout
  · intro n hout
    cases hout

omit [Fintype K] in
/-- **`JFactory::Get`**, when all calls that the callbacks make answer. -/
theorem factoryGet_answers {Get : (j : K) → JEventLoop O M → Result O M (List (O j))}
    (hclean : clean → (callbacks k).Std) (hprov : s.provided k = none)
    (hevnt : (s.factories k).evnt_called = false) (hbusy : (s.factories k).busy = false)
    (hcall : ∀ j t, During clean k s t → Answers (Get j t) (Answered clean j t)) :
    Answers (factoryGet callbacks boundaries Get k s) (Answered clean k s) := by
  unfold factoryGet
  rw [if_neg (by rw [hevnt]; exact Bool.false_ne_true),
    if_neg (by rw [hbusy]; exact Bool.false_ne_true)]
  have hcaught : ∀ stage e t, Called clean k s (.error e) t →
      Answered clean k s (.error e.rethrown) (t.caught callbacks k stage e) :=
    answered_caught hprov hbusy hevnt
  -- what each `try` is given: the loop while `k` is being called
  refine guarded_answers (P := Called clean k s) ?_ (fun t₁ ht₁ => ?_) (hcaught _)
  · unfold callInit
    split
    · exact ⟨_, _, rfl, During.start hevnt, fun _ n h => by cases h⟩
    · exact callback_answers hprov hcall _ (fun hc => (hclean hc).init _) (During.start hevnt)
  have h₁ := ht₁.1.modify (g := ({ · with init_called := true })) (fun _ => rfl)
    (fun _ => rfl) (fun _ => rfl)
  refine guarded_answers (P := Called clean k s) ?_ (fun t₂ ht₂ => ?_) (hcaught _)
  · unfold callErun
    split
    · exact callback_answers hprov hcall _ (fun hc => (hclean hc).erun _) h₁
    · exact ⟨_, _, rfl, h₁, fun _ n h => by cases h⟩
  have h₂ : During clean k s (t₂.afterErun boundaries k) := by
    refine ht₂.1.modify ?_ ?_ ?_
    · intro f
      dsimp only
      split_ifs <;> rfl
    · intro f
      dsimp only
      split_ifs <;> rfl
    · intro f
      dsimp only
      split_ifs <;> rfl
  refine guarded_answers (P := Called clean k s) ?_ (fun t₃ ht₃ => ?_) (hcaught _)
  · unfold callBrun
    split
    · exact ⟨_, _, rfl, h₂, fun _ n h => by cases h⟩
    · exact callback_answers hprov hcall _ (fun hc => (hclean hc).brun _ _) h₂
  have h₃ : During clean k s (t₃.afterBrun k) := by
    refine ht₃.1.modify ?_ ?_ ?_
    · intro f
      split_ifs <;> rfl
    · intro f
      split_ifs <;> rfl
    · intro f
      split_ifs <;> rfl
  refine guarded_answers (P := Called clean k s) ?_ (fun t₄ ht₄ => ?_) (hcaught _)
  · unfold callEvnt
    exact callback_answers hprov hcall _ (fun hc => (hclean hc).evnt _ _)
      (h₃.modify (fun _ => rfl) (fun _ => rfl) (fun _ => rfl))
  -- the objects are copied, and the call is over
  have h₄ := ht₄.1
  refine ⟨_, _, rfl, h₄.leave hbusy hevnt rfl ?_ ?_ ?_, ?_, ?_, ?_⟩
  · intro j hjk
    simp [CopyFrom, modify_factories_of_ne _ hjk]
  · simp [CopyFrom]
  · intro _
    simp
  · intro objects hout
    simpa [CopyFrom] using hout
  · intro _ n hout
    cases hout
  · intro n hout
    cases hout

/-- **Every call of `Get` answers** on a stack deeper than the number of
factories that are not being called: each nested call makes one more busy. -/
theorem Get_answers (callbacks : (k : K) → Callbacks K O (M k) (O k))
    (boundaries : Int32 → List UInt64) (hclean : clean → ∀ k, (callbacks k).Std) (depth : Nat) :
    ∀ (k : K) (s : JEventLoop O M), s.idle.card < depth →
      Answers (Get callbacks boundaries depth k s) (Answered clean k s) := by
  induction depth with
  | zero => intro k s h; omega
  | succ depth ih =>
      intro k s hdepth
      cases hevnt : (s.factories k).evnt_called with
      | true =>
          unfold JEventLoop.Get
          rw [hevnt, if_pos rfl]
          exact ⟨_, _, rfl, answered_copyFrom hevnt⟩
      | false =>
          cases hprov : s.provided k with
          | some objects =>
              exact ⟨_, _, Get_provided hevnt hprov, answered_source hevnt hprov rfl⟩
          | none =>
              -- a factory that is busy throws; one that is not makes one less idle for the
              -- calls nested in it
              have hfactory : Answers
                  (factoryGet callbacks boundaries (JEventLoop.Get callbacks boundaries depth) k s)
                  (Answered clean k s) := by
                cases hbusy : (s.factories k).busy with
                | true =>
                    refine ⟨_, _, ?_, answered_recursion (infiniteRecursion callbacks k) ⟨_, rfl⟩⟩
                    unfold factoryGet
                    rw [hevnt, hbusy, if_neg Bool.false_ne_true, if_pos rfl]
                | false =>
                    refine factoryGet_answers (fun hc => hclean hc k) hprov hevnt hbusy ?_
                    intro j t ht
                    have hcard := ht.idle_card hbusy
                    exact ih j t (by omega)
              obtain ⟨out, t, hout, hanswered⟩ := hfactory
              refine ⟨(rethrow callbacks k (out, t)).1, _, ?_, answered_rethrow hanswered⟩
              rw [Get_not_provided hevnt hprov, hout]
              rfl

/-! ## §6. Requests. -/

/-- Two factories without members: `true` publishes `objects`, and `false` asks
with `GetSingle` for the one of them, or where `itself` is set for its own. -/
def pair (objects : List Nat) (itself : Bool) : Bool → Callbacks Bool (fun _ => Nat) Unit Nat
  | true =>
      { GetDataClassName := "CalorimeterHit", Tag := ""
        init := .ret, erun := .ret, brun := fun _ => .ret
        evnt := fun _ _ => objects.foldr .push_back (.ret ()) }
  | false =>
      { GetDataClassName := "CalorimeterCluster", Tag := ""
        init := .ret, erun := .ret, brun := fun _ => .ret
        evnt := fun _ _ =>
          if itself then
            .Get false fun
              | .ok _ => .ret ()
              | .error e => .throw e ()
          else .GetSingle true () fun t => .push_back (2 * t) (.ret ()) }

/-- The loop of the two factories, with nothing in the source. -/
def pairLoop : JEventLoop (fun _ : Bool => Nat) (fun _ => Unit) where
  event := ⟨1, 7, fun _ => none⟩
  factories := fun _ => .new ()
  error_call_stack := []

/-- The loop of the pair after somebody has asked for the objects of `false`. -/
def pairAsked (objects : List Nat) : JEventLoop (fun _ : Bool => Nat) (fun _ => Unit) :=
  match Get (pair objects false) (fun _ => []) 3 false pairLoop with
  | some result => result.2
  | none => pairLoop

omit [Fintype K] in
/-- **The run**: what every request keeps holds after all of them. -/
theorem execs_keep {depth : Nat} (Inv : JEventLoop O M → Prop)
    (P : (k : K) × Except Thrown (List (O k)) → Prop) (requests : List (Request O))
    (hstep : ∀ request ∈ requests, ∀ s, Inv s → ∃ outs s',
      exec callbacks boundaries depth s request = some (outs, s') ∧ Inv s' ∧ ∀ out ∈ outs, P out)
    {s : JEventLoop O M} (hs : Inv s) :
    ∃ outs s', execs callbacks boundaries depth s requests = some (outs, s') ∧ Inv s'
      ∧ ∀ out ∈ outs, P out := by
  induction requests generalizing s with
  | nil =>
      refine ⟨[], s, rfl, hs, ?_⟩
      intro out hout
      cases hout
  | cons request requests ih =>
      obtain ⟨outs, s₁, hfirst, hs₁, houts⟩ := hstep request List.mem_cons_self s hs
      obtain ⟨outs', s', hrest, hs', houts'⟩ :=
        ih (fun r hr => hstep r (List.mem_cons_of_mem _ hr)) hs₁
      refine ⟨outs ++ outs', s', ?_, hs', ?_⟩
      · unfold execs
        rw [hfirst, Option.bind_some, hrest]
        rfl
      · intro out hout
        cases List.mem_append.mp hout with
        | inl h => exact houts out h
        | inr h => exact houts' out h

/-- A request on a stack deep enough is answered, and the loop after it keeps
the frame. -/
theorem exec_Get {depth : Nat} (hdepth : Fintype.card K < depth)
    (callbacks : (k : K) → Callbacks K O (M k) (O k)) (boundaries : Int32 → List UInt64)
    (hclean : clean → ∀ k, (callbacks k).Std) (k : K) (s : JEventLoop O M) :
    ∃ out s', exec callbacks boundaries depth s (.Get k) = some ([⟨k, out⟩], s')
      ∧ Get callbacks boundaries depth k s = some (out, s') ∧ Answered clean k s out s' := by
  have hcard : s.idle.card ≤ Fintype.card K := Finset.card_le_univ _
  obtain ⟨out, s', hget, hanswered⟩ := Get_answers callbacks boundaries hclean depth k s (by omega)
  refine ⟨out, s', ?_, hget, hanswered⟩
  show (Get callbacks boundaries depth k s).map _ = _
  rw [hget]
  rfl

/-- What is left of a factory that nobody clears `busy` of: it counts as being
called, its objects are not made, and `evnt` is not called again. -/
structure Stuck {M T : Type} (f f' : JFactory M T) : Prop where
  busy : f'.busy = true
  evnt_called : f'.evnt_called = false
  Ncalls_to_evnt : f'.Ncalls_to_evnt = f.Ncalls_to_evnt

/-- A factory that is stuck stays so when only its calls are counted. -/
theorem Stuck.same {M T : Type} {f g h : JFactory M T} (hstuck : Stuck f g) (hsame : Same g h) :
    Stuck f h where
  busy := hsame.busy.trans hstuck.busy
  evnt_called := hsame.evnt_called.trans hstuck.evnt_called
  Ncalls_to_evnt := by
    rw [hsame]
    exact hstuck.Ncalls_to_evnt

/-- A factory that is stuck stays so when a new event begins, since `Reset` does
not touch `busy`. -/
theorem Stuck.reset {M T : Type} {f g : JFactory M T} (hstuck : Stuck f g) : Stuck f (Reset g) := by
  unfold Reset
  split
  · exact hstuck
  · exact ⟨hstuck.busy, rfl, hstuck.Ncalls_to_evnt⟩

omit [Fintype K] in
/-- The exception of `JFactory::Get`, as it is when it leaves
`JEventLoop::Get`. -/
theorem Get_stuck {depth : Nat} (hprov : s.provided k = none)
    (hbusy : (s.factories k).busy = true) (hevnt : (s.factories k).evnt_called = false) :
    Get callbacks boundaries (depth + 1) k s
      = some (.error (.exception "std::exception"), s.AddToErrorCallStack callbacks k "") := by
  rw [Get_not_provided hevnt hprov]
  unfold factoryGet
  rw [hevnt, hbusy, if_neg Bool.false_ne_true, if_pos rfl]
  rfl

/-- **No request runs forever**, whatever the callbacks ask for, in whatever
circles, and whatever they throw. -/
theorem requests_return {depth : Nat} (hdepth : Fintype.card K < depth)
    (callbacks : (k : K) → Callbacks K O (M k) (O k)) (boundaries : Int32 → List UInt64)
    (s : JEventLoop O M) (requests : List (Request O)) :
    ∃ outs s', execs callbacks boundaries depth s requests = some (outs, s') := by
  have hrun : ∃ outs s', execs callbacks boundaries depth s requests = some (outs, s') ∧ True
      ∧ ∀ out ∈ outs, True := by
    refine execs_keep (fun _ => True) (fun _ => True) requests ?_ trivial
    intro request _ t _
    cases request with
    | newEvent event => exact ⟨_, _, rfl, trivial, fun _ _ => trivial⟩
    | Get k =>
        have hclean : False → ∀ k, (callbacks k).Std := False.elim
        obtain ⟨out, t', hexec, -, -⟩ := exec_Get hdepth callbacks boundaries hclean k t
        exact ⟨_, t', hexec, trivial, fun _ _ => trivial⟩
  obtain ⟨outs, s', hexecs, -, -⟩ := hrun
  exact ⟨outs, s', hexecs⟩

/-- A factory that asks for its own objects gets an exception, and both
requests return. -/
theorem requests_return_pair :
    ∃ outs s', execs (pair [] true) (fun _ => []) 3 pairLoop [.Get false, .Get true]
      = some (outs, s') :=
  requests_return (by decide) (pair [] true) (fun _ => []) pairLoop [.Get false, .Get true]

/-- **The objects of an event are made once**: after an answer of `k` all
requests of the event, by whomever, get its objects, and leave the factory as it
is, but for the count of its calls; `evnt` of `k` is not called again. -/
theorem objects_made_once {depth : Nat} (hdepth : Fintype.card K < depth)
    {s s₁ : JEventLoop O M} {objects : List (O k)}
    (h : Get callbacks boundaries depth k s = some (.ok objects, s₁)) (ks : List K) :
    ∃ outs s', execs callbacks boundaries depth s₁ (ks.map .Get) = some (outs, s')
      ∧ (∀ out, ⟨k, out⟩ ∈ outs → out = .ok objects)
      ∧ Same (s₁.factories k) (s'.factories k)
      ∧ (s'.factories k).Ncalls_to_evnt = (s₁.factories k).Ncalls_to_evnt := by
  have hclean : False → ∀ k, (callbacks k).Std := False.elim
  obtain ⟨out, s₁', -, hget, hanswered⟩ := exec_Get hdepth callbacks boundaries hclean k s
  rw [hget] at h
  obtain ⟨rfl, rfl⟩ := Prod.mk.inj (Option.some.inj h)
  obtain ⟨hevnt, hdata⟩ := hanswered.ok objects rfl
  have hstep : ∀ request ∈ ks.map (@Request.Get K O), ∀ t : JEventLoop O M,
      Same (s₁'.factories k) (t.factories k) →
      ∃ outs t', exec callbacks boundaries depth t request = some (outs, t')
        ∧ Same (s₁'.factories k) (t'.factories k)
        ∧ ∀ out ∈ outs, ∀ r, out = ⟨k, r⟩ → r = .ok objects := by
    intro request hrequest t ht
    obtain ⟨j, -, rfl⟩ := List.mem_map.mp hrequest
    obtain ⟨r, t', hexec, hget', hanswered'⟩ := exec_Get hdepth callbacks boundaries hclean j t
    have hcalled : (t.factories k).evnt_called = true := ht.evnt_called.trans hevnt
    have hsame := hanswered'.frame.fixed k (Or.inl hcalled)
    refine ⟨_, t', hexec, ht.trans hsame, ?_⟩
    intro out hout q hq
    rw [List.mem_singleton.mp hout] at hq
    -- `k` itself is asked: the objects are copied
    cases hq
    cases depth with
    | zero => omega
    | succ depth =>
        unfold JEventLoop.Get at hget'
        rw [hcalled, if_pos rfl] at hget'
        refine (congrArg Prod.fst (Option.some.inj hget')).symm.trans ?_
        show Except.ok _ = _
        rw [ht.data, hdata]
  obtain ⟨outs, s', hexecs, hsame, houts⟩ := execs_keep _ _ _ hstep (Same.refl _)
  refine ⟨outs, s', hexecs, fun r hr => houts _ hr r rfl, hsame, ?_⟩
  rw [hsame]

/-- The objects of the pair are made once: the answer to a request for `true`
between the two for `false` changes nothing. -/
theorem objects_made_once_pair :
    ∃ outs s', execs (pair [5] false) (fun _ => []) 3 (pairAsked [5]) [.Get true, .Get false]
        = some (outs, s')
      ∧ (∀ out, ⟨false, out⟩ ∈ outs → out = .ok [10])
      ∧ Same ((pairAsked [5]).factories false) (s'.factories false)
      ∧ (s'.factories false).Ncalls_to_evnt = ((pairAsked [5]).factories false).Ncalls_to_evnt := by
  have h : Get (pair [5] false) (fun _ => []) 3 false pairLoop
      = some (.ok [10], pairAsked [5]) := rfl
  exact objects_made_once (by decide) h [true, false]

/-- **`busy` is down** after every request where all that is thrown is a
`std::exception`. -/
theorem idle_after_requests {depth : Nat} (hdepth : Fintype.card K < depth)
    (hstd : ∀ k, (callbacks k).Std) {s : JEventLoop O M}
    (hs : ∀ k, (s.factories k).busy = false) (requests : List (Request O)) :
    ∃ outs s', execs callbacks boundaries depth s requests = some (outs, s')
      ∧ (∀ k, (s'.factories k).busy = false) ∧ ∀ out ∈ outs, ∀ n, out.2 ≠ .error (.value n) := by
  refine execs_keep (fun t => ∀ k, (t.factories k).busy = false) _ requests ?_ hs
  intro request _ t ht
  cases request with
  | newEvent event =>
      refine ⟨_, _, rfl, fun k => ?_, ?_⟩
      · show (Reset (t.factories k)).busy = false
        unfold Reset
        split
        · exact ht k
        · exact ht k
      · intro out hout
        cases hout
  | Get k =>
      have hclean : True → ∀ k, (callbacks k).Std := fun _ => hstd
      obtain ⟨out, t', hexec, -, hanswered⟩ := exec_Get hdepth callbacks boundaries hclean k t
      refine ⟨_, t', hexec, fun j => ?_, ?_⟩
      · rw [hanswered.frame.idle trivial j]
        exact ht j
      · intro o ho
        rw [List.mem_singleton.mp ho]
        exact hanswered.std trivial

/-- Neither factory is marked as being called after a request that went round
in a circle. -/
theorem idle_after_requests_pair :
    ∃ outs s', execs (pair [] true) (fun _ => []) 3 pairLoop [.Get false, .Get true]
        = some (outs, s')
      ∧ (∀ k, (s'.factories k).busy = false) ∧ ∀ out ∈ outs, ∀ n, out.2 ≠ .error (.value n) := by
  refine idle_after_requests (by decide) ?_ (fun _ => rfl) _
  intro k
  cases k with
  | true => exact ⟨fun _ => trivial, fun _ => trivial, fun _ _ => trivial, fun _ _ => trivial⟩
  | false =>
      refine ⟨fun _ => trivial, fun _ => trivial, fun _ _ => trivial, fun _ _ result hresult => ?_⟩
      cases result with
      | ok objects => exact trivial
      | error e =>
          cases e with
          | exception what => exact ⟨what, rfl⟩
          | value n => exact absurd rfl (hresult n)

/-- **A number thrown through a factory stops it for good**: whatever is asked
for after that, in this event or a later one whose source has no objects for
it, `evnt` is not called again, and nobody gets anything but an exception. -/
theorem stays_busy {depth : Nat} (hdepth : Fintype.card K < depth) {s s₁ : JEventLoop O M}
    {n : UInt64} (h : Get callbacks boundaries depth k s = some (.error (.value n), s₁))
    (requests : List (Request O))
    (hevents : ∀ event, .newEvent event ∈ requests → event.GetObjects k = none) :
    ∃ outs s', execs callbacks boundaries depth s₁ requests = some (outs, s')
      ∧ (∀ out, ⟨k, out⟩ ∈ outs → out = .error (.exception "std::exception"))
      ∧ (s'.factories k).Ncalls_to_evnt = (s₁.factories k).Ncalls_to_evnt := by
  have hclean : False → ∀ k, (callbacks k).Std := False.elim
  obtain ⟨out, s₁', -, hget, hanswered⟩ := exec_Get hdepth callbacks boundaries hclean k s
  rw [hget] at h
  obtain ⟨rfl, rfl⟩ := Prod.mk.inj (Option.some.inj h)
  obtain ⟨hprov, hbusy, hevnt⟩ := hanswered.value n rfl
  have hprov' : s₁'.provided k = none :=
    (provided_congr hanswered.frame.event (hanswered.frame.use_factory k)).trans hprov
  -- each request keeps the factory as it is: busy, and without objects of the event
  have hstep : ∀ request ∈ requests, ∀ t : JEventLoop O M,
      (t.provided k = none ∧ Stuck (s₁'.factories k) (t.factories k)) →
      ∃ outs t', exec callbacks boundaries depth t request = some (outs, t')
        ∧ (t'.provided k = none ∧ Stuck (s₁'.factories k) (t'.factories k))
        ∧ ∀ out ∈ outs, ∀ r, out = ⟨k, r⟩ → r = .error (.exception "std::exception") := by
    intro request hrequest t ht
    obtain ⟨htprov, htstuck⟩ := ht
    cases request with
    | newEvent event =>
        refine ⟨_, _, rfl, ⟨?_, htstuck.reset⟩, ?_⟩
        · unfold provided
          split
          · rfl
          · exact hevents event hrequest
        · intro out hout
          cases hout
    | Get j =>
        obtain ⟨r, t', hexec, hget', hanswered'⟩ := exec_Get hdepth callbacks boundaries hclean j t
        have hsame := hanswered'.frame.fixed k (Or.inr ⟨htstuck.busy, htprov⟩)
        refine ⟨_, t', hexec, ⟨?_, htstuck.same hsame⟩, ?_⟩
        · exact (provided_congr hanswered'.frame.event
            (hanswered'.frame.use_factory k)).trans htprov
        · intro out hout q hq
          rw [List.mem_singleton.mp hout] at hq
          cases hq
          -- the request is for the factory itself, which throws at once
          cases depth with
          | zero => omega
          | succ depth =>
              rw [Get_stuck htprov htstuck.busy htstuck.evnt_called] at hget'
              exact (congrArg Prod.fst (Option.some.inj hget')).symm
  obtain ⟨outs, s', hexecs, hinv, houts⟩ :=
    execs_keep _ _ _ hstep ⟨hprov', hbusy, hevnt, rfl⟩
  exact ⟨outs, s', hexecs, fun r hr => houts _ hr r rfl, hinv.2.Ncalls_to_evnt⟩

/-- The factory that let a number through answers the next event with the message
for a recursion. -/
theorem stays_busy_pair :
    ∃ outs s', execs (pair [] false) (fun _ => []) 3 (pairAsked [])
        [.Get true, .newEvent ⟨2, 7, fun _ => none⟩, .Get false] = some (outs, s')
      ∧ (∀ out, ⟨false, out⟩ ∈ outs → out = .error (.exception "std::exception"))
      ∧ (s'.factories false).Ncalls_to_evnt = ((pairAsked []).factories false).Ncalls_to_evnt := by
  have h : Get (pair [] false) (fun _ => []) 3 false pairLoop
      = some (.error (.value 0), pairAsked []) := rfl
  refine stays_busy (by decide) h _ ?_
  intro event hevent
  simp at hevent
  rw [hevent]

end Answers

end JEventLoop

end PokerReco.JANA
