/-
  PokerReco.System.JROOTOutput
  ────────────────────────────
  **WHAT THE OUTPUT ACCEPTS AND WHAT IT WRITES** (`JROOTOutput`).

  The output is one object shared by the event processor and the plugins.
  `AddObject` looks at the object list alone, `CloseOutput` at the open flag
  alone, and a `CloseOutput` leaves the list behind.  So there is a state,
  closed but with a list, in which an object is accepted that the next
  `OpenOutput` forgets.

      none_lost_iff    every accepted object is written, exactly when each one
                       accepted by a closed output is handed over again while
                       it is open
-/
import Mathlib.Data.List.Induction

namespace PokerReco.System

/-! ## §1. The output. -/

/-- A `TFile`: its name, what was written into it, whether it is still open. -/
structure TFile (ω : Type) where
  fname : String
  written : List ω
  isOpen : Bool
  deriving DecidableEq, Repr

variable {ω : Type}

/-- `TObject::Write` with the file as the current directory. -/
def TFile.write (file : TFile ω) (obj : ω) : TFile ω :=
  if file.isOpen then { file with written := file.written ++ [obj] } else file

/-- `Close`: the file is no longer open, and nothing is written into it
from here on. -/
def TFile.Close (file : TFile ω) : TFile ω := { file with isOpen := false }

/-- The members; `none` is a null pointer. -/
structure JROOTOutput (ω : Type) where
  m_isOpen : Bool
  m_file : Option (TFile ω)
  m_objects : Option (List ω)
  deriving DecidableEq, Repr

namespace JROOTOutput

/-- The constructor: the output is closed, with neither a file nor a list. -/
def new : JROOTOutput ω where
  m_isOpen := false
  m_file := none
  m_objects := none

/-- `OpenOutput`: a new file and a new list, unless the output is open. -/
def OpenOutput (out : JROOTOutput ω) (fname : String) : JROOTOutput ω :=
  if out.m_isOpen = false then
    { m_file := some ⟨fname, [], true⟩
      m_objects := some []
      m_isOpen := true }
  else out

/-- `SaveAll`: every object of the list is written into the file, if both
are there. -/
def SaveAll (out : JROOTOutput ω) : Int × JROOTOutput ω :=
  match out.m_objects with
  | none => (-1, out)
  | some objects =>
      match out.m_file with
      | none => (-2, out)
      | some file => (0, { out with m_file := some (objects.foldl TFile.write file) })

/-- `CloseOutput`: the objects are saved and the file is closed, unless the output
is closed. -/
def CloseOutput (out : JROOTOutput ω) : JROOTOutput ω :=
  if out.m_isOpen then
    let saved := ({ out with m_isOpen := false } : JROOTOutput ω).SaveAll.2
    { saved with m_file := saved.m_file.map TFile.Close }
  else out

/-- `AddObject`: the object goes on the list, open or not; without a list it
is refused. -/
def AddObject (out : JROOTOutput ω) (obj : ω) : Int × JROOTOutput ω :=
  match out.m_objects with
  | none => (-1, out)
  | some objects => (0, { out with m_objects := some (objects ++ [obj]) })

/-- A call of one of the users of the output. -/
inductive Call (ω : Type) where
  | OpenOutput (fname : String)
  | AddObject (obj : ω)
  | CloseOutput
  deriving DecidableEq, Repr

/-- A call of a user and what it makes of the output. -/
def exec (out : JROOTOutput ω) : Call ω → JROOTOutput ω
  | .OpenOutput fname => out.OpenOutput fname
  | .AddObject obj => (out.AddObject obj).2
  | .CloseOutput => out.CloseOutput

/-- The output after the calls, from its construction. -/
def after (calls : List (Call ω)) : JROOTOutput ω := calls.foldl exec new

/-- A `CloseOutput` now writes `obj` into the file that is open now. -/
def Saves (out : JROOTOutput ω) (obj : ω) : Prop :=
  ∃ file file', out.m_file = some file ∧ file.isOpen = true
    ∧ out.CloseOutput.m_file = some file' ∧ file'.fname = file.fname ∧ obj ∈ file'.written

/-- After the calls `before`, one of the `CloseOutput`s among the calls `rest`
saves `obj`. -/
def SavedLater (before rest : List (Call ω)) (obj : ω) : Prop :=
  ∃ mid tail, rest = mid ++ .CloseOutput :: tail ∧ (after (before ++ mid)).Saves obj

/-- Every accepted object is saved later, and an object that is not saved was
refused. -/
def NoneLost (calls : List (Call ω)) : Prop :=
  ∀ before rest obj, calls = before ++ .AddObject obj :: rest →
    (((after before).AddObject obj).1 = 0 → SavedLater (before ++ [.AddObject obj]) rest obj)
      ∧ (¬ SavedLater (before ++ [.AddObject obj]) rest obj →
          ((after before).AddObject obj).1 ≠ 0)

/-! ## §2. The calls alone. -/

/-- One call, as far as it opens or closes the output. -/
def Call.opens : Bool → Call ω → Bool
  | _, .OpenOutput _ => true
  | now, .AddObject _ => now
  | _, .CloseOutput => false

/-- The last call that opens or closes the output is an `OpenOutput`. -/
def nowOpen (calls : List (Call ω)) : Bool := calls.foldl Call.opens false

/-- There was an `OpenOutput` among the calls. -/
def everOpened (calls : List (Call ω)) : Bool :=
  calls.any (fun
    | .OpenOutput _ => true
    | _ => false)

/-- An object handed to an output that is closed, and has been open before, is
handed over again, later, while the output is open. -/
def ClosedAddsRepeated (calls : List (Call ω)) : Prop :=
  ∀ before rest obj, calls = before ++ .AddObject obj :: rest →
    everOpened before = true → nowOpen before = false →
    ∃ mid tail, rest = mid ++ .AddObject obj :: tail
      ∧ nowOpen (before ++ .AddObject obj :: mid) = true

/-! ## §3. The states of the output. -/

/-- **The three states**: never opened, open with an empty file, and closed
with the list still there. -/
inductive State : JROOTOutput ω → Prop where
  | never : State new
  | opened (fname : String) (objects : List ω) : State ⟨true, some ⟨fname, [], true⟩, some objects⟩
  | closed (fname : String) (written objects : List ω) :
      State ⟨false, some ⟨fname, written, false⟩, some objects⟩

/-- Objects that are written one after the other stand behind those
written before. -/
theorem foldl_write (objects : List ω) (fname : String) (written : List ω) :
    objects.foldl TFile.write ⟨fname, written, true⟩ = ⟨fname, written ++ objects, true⟩ := by
  induction objects generalizing written with
  | nil => simp
  | cons obj objects ih =>
      rw [List.foldl_cons]
      show objects.foldl TFile.write ⟨fname, written ++ [obj], true⟩ = _
      rw [ih, List.append_assoc]
      rfl

/-- A `CloseOutput` of the open output writes the list into the file, and
keeps it. -/
theorem CloseOutput_opened (fname : String) (objects : List ω) :
    CloseOutput ⟨true, some ⟨fname, [], true⟩, some objects⟩
      = ⟨false, some ⟨fname, objects, false⟩, some objects⟩ := by
  simp [CloseOutput, SaveAll, foldl_write, TFile.Close]

/-- Every call leads from one of the three states to one of them. -/
theorem exec_state {out : JROOTOutput ω} (h : State out) (c : Call ω) : State (out.exec c) := by
  cases c with
  | OpenOutput fname =>
      cases h with
      | never => exact .opened fname []
      | opened f objects => exact .opened f objects
      | closed f written objects => exact .opened fname []
  | AddObject obj =>
      cases h with
      | never => exact .never
      | opened f objects => exact .opened f (objects ++ [obj])
      | closed f written objects => exact .closed f written (objects ++ [obj])
  | CloseOutput =>
      cases h with
      | never => exact .never
      | opened f objects =>
          show State (CloseOutput _)
          rw [CloseOutput_opened]
          exact .closed f objects objects
      | closed f written objects => exact .closed f written objects

/-- One more call is made from the output that those before have left. -/
theorem after_concat (calls : List (Call ω)) (c : Call ω) :
    after (calls ++ [c]) = (after calls).exec c := by
  simp [after]

/-- After any sequence of calls the output is in one of the three states. -/
theorem after_state (calls : List (Call ω)) : State (after calls) := by
  induction calls using List.reverseRecOn with
  | nil => exact .never
  | append_singleton calls c ih =>
      rw [after_concat]
      exact exec_state ih c

/-- The open flag is what the order of the calls says. -/
theorem after_isOpen (calls : List (Call ω)) : (after calls).m_isOpen = nowOpen calls := by
  induction calls using List.reverseRecOn with
  | nil => rfl
  | append_singleton calls c ih =>
      have hopens : nowOpen (calls ++ [c]) = c.opens (nowOpen calls) := by simp [nowOpen]
      rw [after_concat, hopens, ← ih]
      have hst := after_state calls
      generalize after calls = out at hst
      cases c <;> cases hst <;> simp [exec, OpenOutput, AddObject, CloseOutput, SaveAll, new,
        Call.opens]

/-- There is a list from the first `OpenOutput` on. -/
theorem after_objects (calls : List (Call ω)) :
    (after calls).m_objects.isSome = everOpened calls := by
  induction calls using List.reverseRecOn with
  | nil => rfl
  | append_singleton calls c ih =>
      rw [after_concat]
      unfold everOpened at ih ⊢
      rw [List.any_append, ← ih]
      have hst := after_state calls
      generalize after calls = out at hst
      cases c <;> cases hst <;> simp [exec, OpenOutput, AddObject, CloseOutput, SaveAll, new]

/-- An object is accepted exactly when there is a list. -/
theorem accepted_iff (calls : List (Call ω)) (obj : ω) :
    ((after calls).AddObject obj).1 = 0 ↔ everOpened calls = true := by
  rw [← after_objects]
  unfold AddObject
  cases (after calls).m_objects with
  | none => simp
  | some objects => simp

/-! ## §4. From the list to the file. -/

/-- The object is on the list of the open output, and so the next `CloseOutput`
writes it. -/
def Listed (out : JROOTOutput ω) (obj : ω) : Prop :=
  out.m_isOpen = true ∧ ∃ objects, out.m_objects = some objects ∧ obj ∈ objects

/-- A `CloseOutput` saves what is on the list of the open output. -/
theorem saves_iff_listed {out : JROOTOutput ω} (h : State out) (obj : ω) :
    out.Saves obj ↔ out.Listed obj := by
  unfold Saves Listed
  cases h with
  | never => simp [new]
  | opened fname objects =>
      rw [CloseOutput_opened]
      simp
  | closed fname written objects => simp

/-- What is saved by the calls behind another call is saved with that call in
front of them. -/
theorem SavedLater.cons {before rest : List (Call ω)} {c : Call ω} {obj : ω}
    (h : SavedLater (before ++ [c]) rest obj) : SavedLater before (c :: rest) obj := by
  obtain ⟨mid, tail, hrest, hsave⟩ := h
  refine ⟨c :: mid, tail, by rw [hrest]; rfl, ?_⟩
  rw [List.append_assoc] at hsave
  exact hsave

/-- What is listed while the output is open stays listed until the next
`CloseOutput`. -/
theorem savedLater_of_listed {obj : ω} :
    ∀ (rest before : List (Call ω)), (after before).Listed obj →
      SavedLater before (rest ++ [.CloseOutput]) obj
  | [], before, h => by
      refine ⟨[], [], rfl, ?_⟩
      rw [List.append_nil]
      exact (saves_iff_listed (after_state before) obj).mpr h
  | .CloseOutput :: rest, before, h => by
      refine ⟨[], rest ++ [.CloseOutput], rfl, ?_⟩
      rw [List.append_nil]
      exact (saves_iff_listed (after_state before) obj).mpr h
  | .OpenOutput fname :: rest, before, h => by
      refine SavedLater.cons (savedLater_of_listed rest _ ?_)
      rw [after_concat]
      -- it is open already: nothing to do
      simpa [exec, OpenOutput, h.1] using h
  | .AddObject obj' :: rest, before, h => by
      refine SavedLater.cons (savedLater_of_listed rest _ ?_)
      rw [after_concat]
      obtain ⟨hopen, objects, hobjs, hmem⟩ := h
      refine ⟨by simp [exec, AddObject, hobjs, hopen], objects ++ [obj'], ?_, ?_⟩
      · simp [exec, AddObject, hobjs]
      · exact List.mem_append_left _ hmem

/-- An object that a closed output has on its list, and that is listed when it
is open again, was handed over while it was open. -/
theorem added_while_open {before : List (Call ω)} {obj : ω} (hclosed : nowOpen before = false)
    (mid : List (Call ω)) (h : (after (before ++ mid)).Listed obj) :
    ∃ mid' tail, mid = mid' ++ .AddObject obj :: tail ∧ nowOpen (before ++ mid') = true := by
  induction mid using List.reverseRecOn with
  | nil =>
      obtain ⟨hopen, -⟩ := h
      rw [List.append_nil, after_isOpen, hclosed] at hopen
      cases hopen
  | append_singleton mid c ih =>
      -- either it was listed before the last call, or the last call lists it
      have hsplit : (after (before ++ mid)).Listed obj
          ∨ c = .AddObject obj ∧ nowOpen (before ++ mid) = true := by
        rw [← after_isOpen]
        rw [← List.append_assoc, after_concat] at h
        have hst := after_state (before ++ mid)
        generalize after (before ++ mid) = out at hst h
        cases c with
        | OpenOutput fname =>
            cases hst <;> simp_all [Listed, exec, OpenOutput, new]
        | AddObject obj' =>
            cases hst with
            | never => simp [Listed, exec, AddObject, new] at h
            | opened f objects =>
                simp only [Listed, exec, AddObject, Option.some.injEq, true_and] at h ⊢
                obtain ⟨_, rfl, hmem⟩ := h
                rcases List.mem_append.mp hmem with hmem | hmem
                · exact Or.inl ⟨_, rfl, hmem⟩
                · right
                  rw [List.mem_singleton.mp hmem]
                  exact ⟨rfl, trivial⟩
            | closed f written objects => simp [Listed, exec, AddObject] at h
        | CloseOutput =>
            cases hst <;> simp [Listed, exec, CloseOutput, SaveAll, new] at h
      rcases hsplit with hlist | ⟨rfl, hopen⟩
      · obtain ⟨mid', tail, rfl, hopen⟩ := ih hlist
        exact ⟨mid', tail ++ [c], by simp, hopen⟩
      · exact ⟨mid, [], rfl, hopen⟩

/-! ## §5. Every sequence of calls. -/

/-- What follows an `AddObject` in a sequence that ends with `CloseOutput`
ends with it too. -/
theorem rest_ends {calls before rest : List (Call ω)} {obj : ω}
    (h : calls ++ [.CloseOutput] = before ++ .AddObject obj :: rest) :
    ∃ rest', rest = rest' ++ [.CloseOutput] := by
  rcases List.eq_nil_or_concat rest with rfl | ⟨rest', c, rfl⟩
  · have := (List.append_inj' h rfl).2
    cases this
  · rw [List.concat_eq_append, ← List.cons_append, ← List.append_assoc] at h
    have hc := (List.append_inj' h rfl).2
    rw [List.singleton_inj] at hc
    rw [← hc]
    exact ⟨rest', by simp⟩

/-- An object accepted at the end of `before` is saved by the `CloseOutput`s
to come exactly when the output is open, or the object comes again while it
is. -/
theorem savedLater_iff {before rest : List (Call ω)} {obj : ω} :
    SavedLater (before ++ [.AddObject obj]) (rest ++ [.CloseOutput]) obj
      ↔ nowOpen before = true ∨ ∃ mid tail, rest ++ [.CloseOutput] = mid ++ .AddObject obj :: tail
          ∧ nowOpen (before ++ .AddObject obj :: mid) = true := by
  have hlisted : ∀ calls, nowOpen calls = true →
      (after (calls ++ [.AddObject obj])).Listed obj := by
    intro calls hopen
    rw [← after_isOpen] at hopen
    rw [after_concat]
    have hst := after_state calls
    generalize after calls = out at hst hopen
    cases hst with
    | never => cases hopen
    | opened f objects => exact ⟨rfl, objects ++ [obj], rfl, by simp⟩
    | closed f written objects => cases hopen
  constructor
  · rintro ⟨mid, tail, hrest, hsave⟩
    by_cases hopen : nowOpen before = true
    · exact Or.inl hopen
    right
    have hclosed : nowOpen (before ++ [.AddObject obj]) = false := by
      simpa [nowOpen, Call.opens] using hopen
    rw [saves_iff_listed (after_state _)] at hsave
    obtain ⟨mid', tail', rfl, hmid⟩ := added_while_open hclosed mid hsave
    refine ⟨mid', tail' ++ .CloseOutput :: tail, by rw [hrest]; simp, ?_⟩
    simpa using hmid
  · rintro (hopen | ⟨mid, tail, hrest, hopen⟩)
    · exact savedLater_of_listed rest _ (hlisted before hopen)
    · -- the second `AddObject` lists it, the calls after it end with a `CloseOutput`
      obtain ⟨tail', rfl⟩ := rest_ends hrest
      obtain ⟨m, t, ht, hsave⟩ := savedLater_of_listed tail' _ (hlisted _ hopen)
      refine ⟨mid ++ .AddObject obj :: m, t, ?_, ?_⟩
      · rw [hrest, ht]
        simp
      · simpa using hsave

/-- **NOTHING ACCEPTED IS LOST**, in a sequence of calls that ends with
`CloseOutput`, exactly when each object accepted while the output was closed
is handed over again while it is open. -/
theorem none_lost_iff (calls : List (Call ω)) :
    NoneLost (calls ++ [.CloseOutput]) ↔ ClosedAddsRepeated (calls ++ [.CloseOutput]) := by
  constructor
  · intro h before rest obj hcalls hopened hclosed
    obtain ⟨rest', rfl⟩ := rest_ends hcalls
    have hsaved := (h before _ obj hcalls).1 ((accepted_iff before obj).mpr hopened)
    rcases savedLater_iff.mp hsaved with hopen | hagain
    · rw [hclosed] at hopen
      cases hopen
    · exact hagain
  · intro h before rest obj hcalls
    obtain ⟨rest', rfl⟩ := rest_ends hcalls
    have hsaved : ((after before).AddObject obj).1 = 0 →
        SavedLater (before ++ [.AddObject obj]) (rest' ++ [.CloseOutput]) obj := by
      intro hacc
      have hopened := (accepted_iff before obj).mp hacc
      rw [savedLater_iff]
      by_cases hopen : nowOpen before = true
      · exact Or.inl hopen
      · exact Or.inr (h before _ obj hcalls hopened (by simpa using hopen))
    exact ⟨hsaved, mt hsaved⟩

/-- A run of ET mode: the processor closes the file at the end of run 7, then
a plugin hands over its histogram, which run 8 does not write. -/
theorem histogram_of_run_7_lost :
    ¬ NoneLost [.OpenOutput "out.7.online.root", .AddObject "EventDST", .CloseOutput,
      .AddObject "histogram", .OpenOutput "out.8.online.root", .AddObject "EventDST",
      .CloseOutput] := by
  intro h
  obtain ⟨hsaved, -⟩ := h [.OpenOutput _, .AddObject _, .CloseOutput] _ "histogram" rfl
  obtain ⟨mid, tail, hrest, hsave⟩ := hsaved rfl
  have hs : SavedLater
      ([.OpenOutput "out.7.online.root", .AddObject "EventDST", .CloseOutput]
        ++ [.AddObject "histogram"])
      ([.OpenOutput "out.8.online.root", .AddObject "EventDST"] ++ [.CloseOutput])
      "histogram" := hsaved rfl
  rcases savedLater_iff.mp hs with hopen | ⟨mid, tail, hrest, -⟩
  · cases hopen
  · -- it is not among the calls that follow
    have hmem : Call.AddObject "histogram" ∈ mid ++ .AddObject "histogram" :: tail := by simp
    rw [← hrest] at hmem
    revert hmem
    decide

end JROOTOutput

end PokerReco.System
