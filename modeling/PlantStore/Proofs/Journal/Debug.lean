import PlantStore.Proofs.History.Law
import PlantStore.Proofs.Journal.Line
import PlantStore.Proofs.Reading.Typed

/-! # The log of a debug plant

A debug plant reports the calls themselves. Which lines a call leaves in its log can be told from
its answer, and from what could be read before it: a write always leaves one line with its answer, a
removal one line if it was granted, and a read one line if there was a value to be read, whether or
not the caller could make use of it. A `free` that is refused for the leaves that it leaves behind
warns of them, and reads the type for the warning. -/

namespace PlantStore

/-! ### Lines -/

/-- The seeds that have a name in the log. -/
def seedNames : List (UInt32 × String) :=
  [(1, "int"), (2, "double"), (3, "boolean"), (4, "string"), (5, "int64"), (64, "funcptr"),
    (65, "voidptr"), (66, "plantptr")]

/-- What stands in a line for a seed. -/
def seedText (seed : Seed) : String :=
  (seedNames.lookup seed.code).getD ("seed(" ++ toString seed.code.toNat ++ ")")

/-- What stands in the line of a write for its answer. -/
def answerText : Result Unit → String
  | .ok () => "Ok(())"
  | .error .memoryAllocation => "Err(MemoryAllocation)"
  | .error .noSuchLeaf => "Err(NoSuchLeaf)"
  | .error .noSuchElement => "Err(NoSuchElement)"
  | .error .wrongSeedType => "Err(WrongSeedType)"
  | .error .immutable => "Err(Immutable)"
  | .error .undeletable => "Err(Undeletable)"
  | .error .concurrency => "Err(Concurrency)"
  | .error .badVersion => "Err(BadVersion)"

/-- What stands in a line for a value. -/
def valueText : Value → String
  | .int n => "Int(" ++ toString n.toInt ++ ")"
  | .int64 n => "Int64(" ++ toString n.toInt ++ ")"
  | .double d => "Double(" ++ d.describe ++ ")"
  | .boolean b => if b then "Boolean(true)" else "Boolean(false)"
  | .string s => "String(" ++ String.ofList (Text.quoted s) ++ ")"
  | .pointer word => "Pointer(" ++ ("0x" ++ String.ofList (Nat.toDigits 16 word.toNat)) ++ ")"

/-- The line of a write. -/
def writeLine (key : String) (seed : Seed) (count : Nat) (answer : Result Unit) : String :=
  "DEBUG set " ++ key ++
    (" (" ++ seedText seed ++ ", " ++ toString count ++ " values): " ++ answerText answer)

/-- The line of a value that was read. -/
def readLine (key : String) (index : Nat) (v : Value) : String :=
  "DEBUG get " ++ key ++ ("[" ++ toString index ++ "]: " ++ ("Ok(" ++ valueText v ++ ")"))

theorem Seed.name_eq_seedText (seed : Seed) : seed.name = seedText seed := by
  obtain ⟨code⟩ := seed
  by_cases hnamed : code ∈ seedNames.map Prod.fst
  · simp only [seedNames, List.map_cons, List.map_nil, List.mem_cons, List.not_mem_nil,
      or_false] at hnamed
    rcases hnamed with rfl | rfl | rfl | rfl | rfl | rfl | rfl | rfl <;> rfl
  · have hnone : seedNames.lookup code = none := by
      rw [List.lookup_eq_none_iff]
      intro entry hentry
      exact bne_iff_ne.mpr fun heq => hnamed (heq ▸ List.mem_map_of_mem hentry)
    simp only [seedNames, List.map_cons, List.map_nil, List.mem_cons, List.not_mem_nil,
      or_false, not_or] at hnamed
    rw [seedText, hnone]
    simp only [name, int, double, boolean, string, int64, funcPtr, voidPtr, plantPtr, mk.injEq,
      hnamed, if_false]
    rfl

theorem describeUnit_eq_answerText (answer : Result Unit) :
    describeUnit answer = answerText answer := by
  cases answer with
  | ok a => rfl
  | error e => cases e <;> rfl

theorem Text.ofList_signedDecimal (n : Int) : String.ofList (signedDecimal n) = toString n := by
  cases n with
  | ofNat n => rfl
  | negSucc n => exact String.ofList_cons

theorem Value.describe_eq_valueText (v : Value) : v.describe = valueText v := by
  cases v with
  | int n => rw [describe, valueText, Text.ofList_signedDecimal]
  | int64 n => rw [describe, valueText, Text.ofList_signedDecimal]
  | boolean b => cases b <;> rfl
  | pointer word =>
      rw [describe, valueText, Text.markedHexadecimal, String.ofList_cons, String.ofList_cons,
        ← String.append_assoc]
      rfl
  | _ => rfl

theorem logLines_append (level : Level) (a b : List Event) :
    logLines level (a ++ b) = logLines level a ++ logLines level b := by
  rw [logLines, List.filter_append, List.map_append]
  rfl

/-- What a debug plant reports is in its log. -/
theorem Plant.logLines_report {p : Plant} (hdebug : p.isDebug = true) {event : Event}
    (hlevel : event.level = .debug) : logLines .debug (p.report event) = [event.line] := by
  rw [Plant.report, if_pos hdebug, logLines, List.filter_cons_of_pos (by rw [hlevel]; rfl)]
  rfl

/-- A sweep is reported at a finer level. -/
theorem Plant.logLines_sweepEvents (p : Plant) (start : Nat) :
    logLines .debug (p.sweepEvents start) = [] := by
  rw [logLines, List.filter_eq_nil_iff.mpr]
  · rfl
  · intro event hevent
    obtain ⟨leaf, -, rfl⟩ := List.mem_map.mp hevent
    exact Bool.false_ne_true

section

variable [KeyHash]

namespace Plant

/-- The lines of a read: one if leaf and element exist. -/
def readLines (p : Plant) (key : String) (index : Nat) : List String :=
  match p.getAll key with
  | .ok values => (values[index]?).toList.map (readLine key index)
  | .error _ => []

/-- The lines of a `free` that leaves leaves behind: the type is read, and then stands in a
warning. -/
def leftLines (p : Plant) : List String :=
  match p.type with
  | .ok type =>
      [readLine rootKey 0 (.int type), "WARN plant of type " ++
        ("Some(" ++ toString type.toInt ++ ")") ++ " kept alive by undeletable leaves"]
  | .error _ => []

/-- The lines that a call leaves in the log of a debug plant, down to the level `debug`. -/
def debugLines (p : Plant) : Call → Answer → List String
  | .set key seed values, .unit answer => [writeLine key seed values.length answer]
  | .get key index, _ => p.readLines key index
  | .getAs _ key, _ => p.readLines key 0
  | .type, _ => p.readLines rootKey 0
  | .delete key, .unit (.ok ()) => ["DEBUG deleted " ++ key]
  | .free, .unit (.ok ()) => ["DEBUG plant freed"]
  | .free, .unit (.error .undeletable) => if p.root.isUndeletable then [] else p.leftLines
  | _, _ => []

theorem Presents.readLines_eq {p : Plant} {key : String} {values : List Value}
    (h : p.Presents key values) (index : Nat) :
    p.readLines key index = (values[index]?).toList.map (readLine key index) := by
  rw [readLines, h.getAll]

/-! ### One call -/

section

variable {p : Plant} (hdebug : p.isDebug = true)

include hdebug

theorem logLines_set (key : String) (seed : Seed) (values : List Value) :
    logLines .debug (p.set key seed values).events =
      [writeLine key seed values.length (p.set key seed values).answer] := by
  have hreport (answer : Result Unit) :
      logLines .debug (p.report (.wrote key seed values.length answer)) =
        [writeLine key seed values.length answer] := by
    rw [logLines_report hdebug rfl, Event.line_wrote, Seed.name_eq_seedText,
      describeUnit_eq_answerText]
    rfl
  rw [set]
  split
  next after events hstore =>
    -- The link of a new leaf is reported at a finer level.
    have hlinked : logLines .debug events = [] := by
      rcases events_of_store hstore with rfl | rfl <;> rfl
    rw [logLines_append, hlinked, hreport]
    rfl
  next e hstore => exact hreport (.error e)

/-- A leaf that is found is read, and the value is in the log. -/
theorem WellFormed.logLines_getEvents (h : p.WellFormed) (key : String) (index : Nat) :
    logLines .debug (p.getEvents key index) = p.readLines key index := by
  rw [getEvents]
  cases hfind : p.find? key with
  | none =>
      rw [readLines, (lacks_of_find?_none hfind).getAll]
      rfl
  | some leaf =>
      obtain ⟨values, hholds⟩ := (h.leaf_wellFormed leaf (h.find?_eq_some_iff.mp hfind).2.1).holds
      rw [(presents_of_find? hfind hholds).readLines_eq]
      dsimp only
      rw [hholds.length_eq, hholds.valueAt_eq]
      -- An index past the end reads nothing, and so nothing is logged.
      by_cases hindex : index < values.length
      · rw [if_pos hindex, List.getElem?_eq_getElem hindex, logLines_report hdebug rfl]
        have hline := Event.line_read key index (.ok values[index])
        rw [describeResult, Value.describe_eq_valueText] at hline
        exact congrArg (fun line => [line]) hline
      · rw [if_neg hindex, List.getElem?_eq_none (Nat.le_of_not_lt hindex)]
        rfl

theorem logLines_delete (key : String) :
    logLines .debug (p.delete key).events =
      p.debugLines (.delete key) (.unit (p.delete key).answer) := by
  rw [delete]
  split
  next index _ =>
    rw [removeAt]
    split
    · rfl
    split
    · rfl
    · show logLines .debug ([.unlinked _] ++ p.report (.deleted key)) = _
      rw [logLines_append, logLines_report hdebug rfl, Event.line_deleted]
      rfl
  · rfl
  · rfl

theorem WellFormed.logLines_free (h : p.WellFormed) :
    logLines .debug p.free.events = p.debugLines .free (.unit p.free.answer) := by
  rw [Plant.free]
  cases hu : p.root.isUndeletable with
  | true =>
      show [] = if p.root.isUndeletable then [] else p.leftLines
      rw [hu]
      rfl
  | false =>
      rw [if_neg Bool.false_ne_true, Plant.freeAfterWait]
      cases hd : p.isDefunct with
      | true => rfl
      | false =>
          rw [if_neg Bool.false_ne_true, Plant.freeFrom]
          have hroot : (p.sweep 0).root.isUndeletable = false := hu
          simp only [hroot]
          split
          · -- The root is the same before and after the sweep.
            obtain ⟨n, hholds⟩ := h.root_holds hd
            obtain ⟨-, htype⟩ := h.reads_root hd hholds
            obtain ⟨hpresents, hswept⟩ := (h.sweep 0).reads_root hd hholds
            have hdebug' : (p.sweep 0).isDebug = true := hdebug
            have hread := (h.sweep 0).logLines_getEvents hdebug' rootKey 0
            rw [hpresents.readLines_eq] at hread
            have hkept : (Event.keptAlive (p.sweep 0).type.toOption).line =
                "WARN plant of type " ++ ("Some(" ++ toString n.toInt ++ ")") ++
                  " kept alive by undeletable leaves" := by
              rw [hswept, Event.line_keptAlive]
              rfl
            show logLines .debug (p.sweepEvents 0 ++ (p.sweep 0).getEvents rootKey 0 ++ [_]) =
              if p.root.isUndeletable then [] else p.leftLines
            rw [logLines_append, logLines_append, logLines_sweepEvents, hread, hu, leftLines, htype]
            exact congrArg (fun line => [readLine rootKey 0 (.int n), line]) hkept
          · show logLines .debug (p.sweepEvents 0 ++ p.report .freed) = _
            rw [logLines_append, logLines_sweepEvents, logLines_report hdebug rfl]
            rfl

/-- The log of a call is told by its answer. -/
theorem WellFormed.logLines_perform (h : p.WellFormed) (call : Call) :
    logLines .debug (p.perform call).events = p.debugLines call (p.perform call).answer := by
  cases call with
  | set key seed values => exact logLines_set hdebug key seed values
  | get key index => exact h.logLines_getEvents hdebug key index
  | getAs kind key => exact h.logLines_getEvents hdebug key 0
  | type => exact h.logLines_getEvents hdebug rootKey 0
  | delete key => exact logLines_delete hdebug key
  | free => exact h.logLines_free hdebug
  | setFlags key flags => exact congrArg (logLines .debug) (events_change key _)
  | setHostWord key word => exact congrArg (logLines .debug) (events_change key _)
  | _ => rfl

end

/-! ### Runs -/

/-- No call makes a plant a debug plant, or makes it none. -/
theorem WellFormed.isDebug_perform {p : Plant} (h : p.WellFormed) (call : Call) :
    (p.perform call).plant.isDebug = p.isDebug := by
  have hchange (key : String) (f : Leaf → Leaf) (hf : Leaf.IsContent f) :
      (p.change key f).plant.isDebug = p.isDebug := by
    rcases h.change_cases key f with ⟨-, -, hp⟩ | ⟨-, -, -, hp⟩ <;> rw [hp]
    rfl
  cases call with
  | set key seed values =>
      show (p.set key seed values).plant.isDebug = p.isDebug
      rcases h.set_cases key seed values with ⟨-, -, hp⟩ | ⟨-, elements, -, -, -, hp⟩ |
          ⟨elements, -, -, -, -, hp⟩ <;> rw [hp]
      · rfl
      · rfl
  | setFlags key flags => exact hchange key _ (Leaf.isContent_flags flags)
  | setHostWord key word => exact hchange key _ (Leaf.isContent_hostWord word)
  | delete key =>
      show (p.delete key).plant.isDebug = p.isDebug
      rcases h.delete_cases key with ⟨-, -, hp⟩ | ⟨-, -, -, -, -, hp⟩ <;> rw [hp]
      rfl
  | free =>
      show p.free.plant.isDebug = p.isDebug
      rcases p.free_cases with ⟨-, -, hp⟩ | ⟨-, -, -, hp⟩ | ⟨-, -, hfree⟩
      · rw [hp]
      · rw [hp]
      · rw [hfree]
        rcases p.freeFrom_cases 0 with ⟨-, -, hp⟩ | ⟨-, -, -, hp⟩ | ⟨-, -, -, hp⟩ <;>
          rw [hp] <;> rfl
  | _ => rfl

theorem WellFormed.isDebug_run {p : Plant} (h : p.WellFormed) (calls : List Call) :
    (p.run calls).1.isDebug = p.isDebug := by
  induction calls generalizing p with
  | nil => rfl
  | cons call calls ih => exact (ih (h.perform call)).trans (h.isDebug_perform call)

end Plant

end

end PlantStore
