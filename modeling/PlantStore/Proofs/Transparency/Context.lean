import PlantStore.Context.Basic
import PlantStore.Proofs.Transparency.Describe
import PlantStore.Proofs.Transparency.Trace

/-! # Contexts are transparent

The tables of a context hold the operations of the store by themselves, so a call through them is
the call. All that a context can decide is whether the plants that it makes are debug plants. Then
what is done with such a plant is what is done with one that was made directly: all calls get the
same answers, except to the question for it, and the lines of the log are the same, except those of
level `debug`. -/

namespace PlantStore

/-! ### Lines of level `debug` -/

/-- Whether a line of a log has the level `debug`. -/
def isDebugLine (line : String) : Bool := "DEBUG ".toList.isPrefixOf line.toList

theorem isDebugLine_line (event : Event) :
    isDebugLine event.line = decide (event.level = .debug) := by
  rw [isDebugLine, Event.line, String.toList_append, String.toList_append]
  cases event.level <;> rfl

/-- The lines that are left of a log without those of level `debug`. -/
theorem filter_logLines (level : Level) (events : List Event) :
    (logLines level events).filter (fun line => !isDebugLine line) =
      logLines level (heard true events) := by
  have hline : ((fun line => !isDebugLine line) ∘ Event.line) =
      fun event => decide (event.level ≠ .debug) := by
    funext event
    rw [Function.comp_apply, isDebugLine_line, decide_not]
  rw [logLines, logLines, List.filter_map, hline, List.filter_comm]
  rfl

theorem level_ne_debug_of_mem_heard {events : List Event} :
    ∀ event ∈ heard true events, event.level ≠ .debug := fun _ hevent =>
  of_decide_eq_true (List.mem_filter.mp hevent).2

/-! ### Plants that are no debug plants -/

/-- The plant, made no debug plant. -/
def Plant.silenced (p : Plant) : Plant := { p with isDebug := false }

/-- A call with the answer that it gets from a plant that is no debug plant. -/
def Part.silenced (part : Part) : Part where
  role := part.role
  call := part.call
  met := part.met.silenced
  answer :=
    match part.call with
    | .describe => .text part.met.silenced.describe
    | .isDebug => .truth false
    | _ => part.answer

section

variable [KeyHash]

theorem Plant.Hashed.recast_eq_silenced {p : Plant} (h : p.Hashed) :
    p.recast KeyHash.hash true = p.silenced := by
  have hsame := p.hashed_iff.mp h
  have hroot : p.root.recast KeyHash.hash = p.root := congrArg Plant.root hsame
  have hchain : p.chain.map (Leaf.recast KeyHash.hash) = p.chain := congrArg Plant.chain hsame
  rw [recast, hroot, hchain, Bool.not_true, Bool.and_false]
  rfl

theorem Part.recast_eq_silenced {part : Part} (h : part.met.Hashed) :
    part.recast KeyHash.hash true = part.silenced := by
  obtain ⟨role, call, met, answer⟩ := part
  have hmet : met.recast KeyHash.hash true = met.silenced := Plant.Hashed.recast_eq_silenced h
  simp only [recast, silenced, hmet]
  cases call <;> rfl

namespace Context

/-! ### The tables -/

/-- A context that has been negotiated has the tables for its options. -/
theorem table_of_init {requested : Int32} {flags : InitFlags} {c : Context}
    (h : (init requested flags).1 = .ok c) : c.table = .ofFlags flags := by
  unfold init at h
  split at h
  · cases h
    rfl
  · cases h

/-- Every call through the tables is the call. -/
theorem perform_eq {flags : InitFlags} {c : Context} (h : c.table = .ofFlags flags) :
    c.perform = Plant.perform := by
  funext p call
  unfold perform
  rw [h]
  cases call <;> rfl

/-- The trace of a session in which calls are carried out through the tables. -/
def trace (c : Context) (p : Plant) (session : List Episode) : Trace :=
  p.traceBy c.perform session

theorem trace_eq {flags : InitFlags} {c : Context} (h : c.table = .ofFlags flags) (p : Plant)
    (session : List Episode) : c.trace p session = p.trace session := by
  rw [trace, perform_eq h]
  rfl

theorem newPlant_eq {flags : InitFlags} {c : Context} (h : c.table = .ofFlags flags)
    (type : Int32) : c.newPlant type = Plant.new type (flags.contains .debug) := by
  rw [newPlant, h]
  rfl

end Context

namespace Plant

/-! ### A debug plant and one that is none -/

variable (type : Int32) (debug : Bool) {session : List Episode}

theorem make_silenced : make type false = (make type debug).recast KeyHash.hash true := by
  rw [← make_recast, Bool.not_true, Bool.and_false]

theorem admitsAll_make (hadm : (make type false).AdmitsAll session) :
    (make type debug).AdmitsAll session := by
  rw [make_silenced type debug] at hadm
  exact ((Hashed.make type debug).admitsAll_recast KeyHash.hash true session).mp hadm

/-- What is reported of a plant that is no debug plant is what is heard of the debug plant. -/
theorem reports_silenced (hadm : (make type debug).AdmitsAll session) :
    (new type false).events :: ((make type false).trace session).reports =
      ((new type debug).events :: ((make type debug).trace session).reports).map (heard true) := by
  have hcreated := (make type debug).report_recast KeyHash.hash true
    (rfl : (Event.created type).level = .debug)
  rw [List.map_cons, make_silenced type debug,
    (Hashed.make type debug).trace_recast KeyHash.hash true hadm]
  rw [← make_silenced] at hcreated
  exact congrArg (· :: _) hcreated

/-- The calls on a plant that is no debug plant are those on the debug plant, silenced. -/
theorem parts_silenced (hadm : (make type debug).AdmitsAll session) :
    ((make type false).trace session).parts =
      ((make type debug).trace session).parts.map Part.silenced := by
  have hp := Hashed.make type debug
  rw [make_silenced type debug, hp.trace_recast KeyHash.hash true hadm]
  refine List.map_congr_left fun part hpart => Part.recast_eq_silenced ?_
  exact part.met.hashed_iff.mpr (congrArg Part.met (hp.recast_of_mem_parts hadm hpart))

/-- The plant that is left in the end has the same leaves. -/
theorem plant_silenced (hadm : (make type debug).AdmitsAll session) :
    ((make type false).trace session).plant = ((make type debug).trace session).plant.silenced := by
  have hp := Hashed.make type debug
  have hlast : ((make type debug).trace session).plant.Hashed :=
    hp.of_recast (fun p => (p.trace session).plant)
      (congrArg Trace.plant (hp.trace_recast KeyHash.hash false hadm))
  rw [make_silenced type debug, hp.trace_recast KeyHash.hash true hadm, ← hlast.recast_eq_silenced]
  rfl

/-- A description in a session is that of the plant that it is asked of. -/
theorem describe_silenced (hadm : (make type debug).AdmitsAll session) {part : Part}
    (hpart : part ∈ ((make type debug).trace session).parts) (hcall : part.call = .describe) :
    ∃ a b, part.answer = .text a ∧ part.silenced.answer = .text b ∧
      Text.SameButFor (describeBool part.met.isDebug) (describeBool false) a b := by
  have hself := (Hashed.make type debug).recast_of_mem_parts hadm hpart
  have hmet : part.met.recast KeyHash.hash false = part.met := congrArg Part.met hself
  refine ⟨part.met.describe, part.met.silenced.describe, ?_, ?_, part.met.describe_isDebug false⟩
  · rw [← hself]
    simp only [Part.recast, hcall, hmet]
  · simp only [Part.silenced, hcall]

/-- Without the option nothing is reported at level `debug`, neither by a call by itself nor by any
call of an overlap on the plant that it comes upon. -/
theorem level_ne_debug (hadm : (make type false).AdmitsAll session) :
    (∀ events ∈ (new type false).events :: ((make type false).trace session).reports,
      ∀ event ∈ events, event.level ≠ .debug) ∧
    ∀ part ∈ ((make type false).trace session).parts,
      ∀ event ∈ (part.met.perform part.call).events, event.level ≠ .debug := by
  constructor
  · intro events hevents
    rw [reports_silenced type false hadm] at hevents
    obtain ⟨all, -, rfl⟩ := List.mem_map.mp hevents
    exact level_ne_debug_of_mem_heard
  · intro part hpart
    have hp := Hashed.make type false
    have hself := congrArg Part.met (hp.recast_of_mem_parts hadm hpart)
    have hmet : part.met.Hashed := part.met.hashed_iff.mpr hself
    -- The plant that the call comes upon is silenced already.
    have hparts := parts_silenced type false hadm
    have hmap : ((make type false).trace session).parts.map Part.silenced =
        ((make type false).trace session).parts.map id := hparts.symm.trans (List.map_id _).symm
    have hsilent : part.met.silenced = part.met :=
      congrArg Part.met (List.map_inj_left.mp hmap part hpart)
    have hevents := (hmet.plant_perform_recast KeyHash.hash true part.call).2
    rw [hmet.recast_eq_silenced, hsilent] at hevents
    have hheard : (part.met.perform part.call).events =
        heard true (part.met.perform part.call).events := hevents
    rw [hheard]
    exact level_ne_debug_of_mem_heard

end Plant

/-! ### The theorem -/

/-- What a context does with its plants, for every version and all options with which one can be
negotiated. A session can take place on a new plant of the context, with the calls made through its
tables, if it can on a plant that was made directly. All calls get the same answers, but for the
question for a debug plant and the place in the description that tells it, and the same leaves are
left. Without the lines of level `debug`, the log of every step is the same at every level, and
there are no such lines if the option `debug` is not set. -/
theorem Context.trace_of_init {requested : Int32} {flags : InitFlags} {c : Context}
    (hc : (Context.init requested flags).1 = .ok c) (type : Int32) {session : List Episode}
    (hadm : (Plant.new type false).plant.AdmitsAll session) :
    let made := c.newPlant type
    let through := c.trace made.plant session
    let plain := Plant.new type false
    let direct := plain.plant.trace session
    made.plant.AdmitsAll session ∧
    direct.parts = through.parts.map Part.silenced ∧
    (∀ part ∈ through.parts, part.call ≠ .describe → part.call ≠ .isDebug →
      part.silenced.answer = part.answer) ∧
    (∀ part ∈ through.parts, part.call = .describe →
      ∃ a b, part.answer = .text a ∧ part.silenced.answer = .text b ∧
        Text.SameButFor (describeBool part.met.isDebug) (describeBool false) a b) ∧
    direct.plant = through.plant.silenced ∧
    (∀ level, (plain.events :: direct.reports).map (logLines level) =
      (made.events :: through.reports).map fun events =>
        (logLines level events).filter fun line => !isDebugLine line) ∧
    (flags.contains .debug = false →
      (∀ events ∈ made.events :: through.reports, ∀ event ∈ events, event.level ≠ .debug) ∧
      ∀ part ∈ through.parts, ∀ event ∈ (part.met.perform part.call).events,
        event.level ≠ .debug) := by
  have htable := Context.table_of_init hc
  have hmade := Plant.admitsAll_make type (flags.contains .debug) hadm
  rw [Context.newPlant_eq htable]
  intro made through plain direct
  have hthrough : through = (Plant.make type (flags.contains .debug)).trace session :=
    Context.trace_eq htable _ session
  have hreports : plain.events :: direct.reports =
      (made.events :: through.reports).map (heard true) := by
    rw [hthrough]
    exact Plant.reports_silenced type _ hmade
  refine ⟨hmade, ?_, ?_, ?_, ?_, ?_, ?_⟩
  · rw [hthrough]
    exact Plant.parts_silenced type _ hmade
  · rintro ⟨role, call, met, answer⟩ - hdescribe hdebug
    cases call with
    | describe => exact absurd rfl hdescribe
    | isDebug => exact absurd rfl hdebug
    | _ => rfl
  · rw [hthrough]
    exact fun part hpart hcall => Plant.describe_silenced type _ hmade hpart hcall
  · rw [hthrough]
    exact Plant.plant_silenced type _ hmade
  · intro level
    rw [hreports, List.map_map]
    exact List.map_congr_left fun events _ => (filter_logLines level events).symm
  · intro hflags
    rw [hthrough]
    simp only [made, hflags] at hmade ⊢
    exact Plant.level_ne_debug type hmade

end

namespace Context

/-- A debug plant of a context that was asked for a newer version, in a session that writes, reads,
removes and frees with an overlap in between, and a plant of a context without options. -/
theorem trace_of_clamped :
    let session : List Episode :=
      [.alone (.set "a" .int [.int 1]), .alone (.get "a" 0), .alone .describe,
        .overlap (.getAll "a") [.now .isDebug, .start (.set "a" .int [.int 2]),
          .start (.delete "a")],
        .alone .isDebug, .alone (.setFlags "" ⟨0⟩), .alone .free]
    let c := serving newestVersion ⟨3⟩
    let plain := standard
    (init 9000 ⟨3⟩).1 = .ok c ∧ (init 202 .empty).1 = .ok plain ∧
      (Plant.new 7 false).plant.AdmitsAll session ∧
      ((Plant.new 7 false).plant.trace session).parts =
        (c.trace (c.newPlant 7).plant session).parts.map Part.silenced ∧
      ((c.newPlant 7).events :: (c.trace (c.newPlant 7).plant session).reports).map
          (fun events => ((logLines .trace events).length,
            ((logLines .trace events).filter fun line => !isDebugLine line).length)) =
        [(1, 0), (2, 1), (1, 0), (0, 0), (0, 0), (0, 0), (0, 0), (1, 0)] ∧
      ∀ events ∈ (plain.newPlant 7).events ::
        (plain.trace (plain.newPlant 7).plant session).reports,
          ∀ event ∈ events, event.level ≠ .debug := by
  intro session c plain
  have hclamped : (init 9000 ⟨3⟩).1 = .ok c := rfl
  have hplain : (init 202 .empty).1 = .ok plain := rfl
  have hadm : (Plant.new 7 false).plant.AdmitsAll session := by decide
  obtain ⟨-, hparts, -⟩ := trace_of_init hclamped 7 hadm
  obtain ⟨-, -, -, -, -, -, hquiet⟩ := trace_of_init hplain 7 hadm
  exact ⟨hclamped, hplain, hadm, hparts, by decide, (hquiet (by decide)).1⟩

end Context

end PlantStore
