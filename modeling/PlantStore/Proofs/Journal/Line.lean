import Mathlib.Data.List.Basic
import PlantStore.Event
import PlantStore.Key.Stored

/-! # The journal in a log

A log that is kept down to the finest level tells of every leaf that enters the chain and of
every leaf that leaves it. Here such a log is read as a text, line by line, and the reader
keeps the list of keys that follows from it. A line that does not fit the list ends the
reading: a key that enters twice, one that leaves without being there, and a wrong remark on
where the key is kept.

The reader knows nothing of plants. What it makes of the lines of an event is the last part of
this module. -/

namespace PlantStore
namespace Journal

/-! ### A line -/

/-- What stands between two texts in a line that begins with the one and ends with the
other. -/
def between? (before after line : String) : Option String :=
  (line.toList.dropPrefix? before.toList).bind fun rest =>
    (rest.dropSuffix? after.toList).map String.ofList

/-- What a line says about the chain. -/
inductive Move
  /-- A leaf was put to the front, and its key is or is not kept in the leaf. -/
  | enters (key : String) (isInline : Bool)
  /-- A leaf was taken out. -/
  | leaves (key : String)
  deriving DecidableEq

/-- What a line says about the chain, if it says anything. -/
def Move.ofLine? (line : String) : Option Move :=
  ((between? "TRACE linking new leaf " " (inline key: true)" line).map (enters · true)).or <|
  ((between? "TRACE linking new leaf " " (inline key: false)" line).map (enters · false)).or <|
  (between? "TRACE freeing leaf " "" line).map leaves

/-- Whether a line is of the finest level. -/
def isTrace (line : String) : Bool := "TRACE ".toList.isPrefixOf line.toList

/-! ### A log -/

/-- The keys after a move, if the move can be made. A key of at most 32 bytes is kept in its
leaf. -/
def advance (listed : List String) : Move → Option (List String)
  | .enters key isInline =>
    if key ∉ listed ∧ isInline = decide ((Text.utf8Bytes key).length ≤ 32) then
      some (key :: listed)
    else none
  | .leaves key => if key ∈ listed then some (listed.erase key) else none

/-- The keys after a line. Every line of the finest level has to be a move. -/
def read (listed : List String) (line : String) : Option (List String) :=
  if isTrace line then (Move.ofLine? line).bind (advance listed) else some listed

/-- The keys after a log, from none on. -/
def replay (log : List String) : Option (List String) := log.foldlM read []

/-- The moves of a log. -/
def moves (log : List String) : List Move := log.filterMap Move.ofLine?

/-! ### Texts around a key -/

theorem between?_eq_some_iff {before after line middle : String} :
    between? before after line = some middle ↔ line = before ++ middle ++ after := by
  rw [between?, Option.bind_eq_some_iff]
  constructor
  · rintro ⟨rest, hrest, hmiddle⟩
    obtain ⟨start, hline, hstart⟩ := List.dropPrefix?_eq_some_iff.mp hrest
    obtain ⟨chars, hchars, rfl⟩ := Option.map_eq_some_iff.mp hmiddle
    obtain ⟨ending, hrest, hending⟩ := List.dropSuffix?_eq_some_iff.mp hchars
    apply String.toList_inj.mp
    rw [hline, hrest, eq_of_beq hstart, eq_of_beq hending, String.toList_append,
      String.toList_append, String.toList_ofList, List.append_assoc]
  · rintro rfl
    refine ⟨middle.toList ++ after.toList, ?_, ?_⟩
    · rw [String.toList_append, String.toList_append, List.append_assoc]
      exact List.dropPrefix?_append_of_beq _ BEq.rfl
    · rw [List.dropSuffix?_eq_some_iff.mpr ⟨after.toList, rfl, BEq.rfl⟩]
      exact congrArg some String.ofList_toList

/-- Nothing is found in a line that begins otherwise. -/
theorem between?_of_start {start before line : String} (after : String)
    (h : start.toList <+: line.toList) (hne : ¬ before.toList <+: start.toList)
    (hne' : ¬ start.toList <+: before.toList) : between? before after line = none := by
  rw [Option.eq_none_iff_forall_ne_some]
  intro middle hmiddle
  rw [between?_eq_some_iff] at hmiddle
  have hbefore : before.toList <+: line.toList := by
    rw [hmiddle, String.toList_append, String.toList_append, List.append_assoc]
    exact List.prefix_append _ _
  rcases List.prefix_or_prefix_of_prefix hbefore h with hp | hp
  · exact hne hp
  · exact hne' hp

/-- Nothing is found in a line that ends otherwise. -/
theorem between?_of_end {ending after line : String} (before : String)
    (h : ending.toList <:+ line.toList) (hne : ¬ after.toList <:+ ending.toList)
    (hne' : ¬ ending.toList <:+ after.toList) : between? before after line = none := by
  rw [Option.eq_none_iff_forall_ne_some]
  intro middle hmiddle
  rw [between?_eq_some_iff] at hmiddle
  have hafter : after.toList <:+ line.toList := by
    rw [hmiddle, String.toList_append]
    exact List.suffix_append _ _
  rcases List.suffix_or_suffix_of_suffix hafter h with hs | hs
  · exact hne hs
  · exact hne' hs

/-- Nothing is found in a line of a coarser level. -/
theorem Move.ofLine?_of_start {start line : String} (h : start.toList <+: line.toList)
    (hstart : start = "DEBUG" ∨ start = "WARN") : ofLine? line = none := by
  have hlinking (after : String) : between? "TRACE linking new leaf " after line = none := by
    rcases hstart with rfl | rfl
    · exact between?_of_start after h (by decide) (by decide)
    · exact between?_of_start after h (by decide) (by decide)
  have hfreeing : between? "TRACE freeing leaf " "" line = none := by
    rcases hstart with rfl | rfl
    · exact between?_of_start "" h (by decide) (by decide)
    · exact between?_of_start "" h (by decide) (by decide)
  rw [ofLine?, hlinking, hlinking, hfreeing]
  rfl

end Journal

namespace Event

open Journal

/-! ### The lines of events -/

/-- What an event says about the chain. -/
def move? : Event → Option Move
  | linked key isInline => some (.enters key isInline)
  | unlinked key => some (.leaves key)
  | _ => none

/-- The remark behind the key of a new leaf. -/
def remark (isInline : Bool) : String :=
  if isInline then " (inline key: true)" else " (inline key: false)"

theorem line_linked (key : String) (isInline : Bool) :
    (linked key isInline).line = "TRACE linking new leaf " ++ key ++ remark isInline := by
  have hline : (linked key isInline).line = "TRACE" ++ " " ++
      ("linking new leaf " ++ key ++ " (inline key: " ++ describeBool isInline ++ ")") := rfl
  rw [hline]
  apply String.toList_inj.mp
  simp only [String.toList_append, List.append_assoc]
  cases isInline <;> rfl

theorem line_unlinked (key : String) : (unlinked key).line = "TRACE freeing leaf " ++ key := by
  have hline : (unlinked key).line = "TRACE" ++ " " ++ ("freeing leaf " ++ key) := rfl
  rw [hline]
  apply String.toList_inj.mp
  simp only [String.toList_append, List.append_assoc]
  rfl

theorem line_wrote (key : String) (seed : Seed) (count : Nat) (outcome : Result Unit) :
    (wrote key seed count outcome).line = "DEBUG set " ++ key ++
      (" (" ++ seed.name ++ ", " ++ toString count ++ " values): " ++ describeUnit outcome) := by
  have hline : (wrote key seed count outcome).line = "DEBUG" ++ " " ++ ("set " ++ key ++ " (" ++
      seed.name ++ ", " ++ toString count ++ " values): " ++ describeUnit outcome) := rfl
  rw [hline]
  apply String.toList_inj.mp
  simp only [String.toList_append, List.append_assoc]
  rfl

theorem line_read (key : String) (index : Nat) (outcome : Result Value) :
    (read key index outcome).line = "DEBUG get " ++ key ++
      ("[" ++ toString index ++ "]: " ++ describeResult Value.describe outcome) := by
  have hline : (read key index outcome).line = "DEBUG" ++ " " ++ ("get " ++ key ++ "[" ++
      toString index ++ "]: " ++ describeResult Value.describe outcome) := rfl
  rw [hline]
  apply String.toList_inj.mp
  simp only [String.toList_append, List.append_assoc]
  rfl

theorem line_deleted (key : String) : (deleted key).line = "DEBUG deleted " ++ key := by
  have hline : (deleted key).line = "DEBUG" ++ " " ++ ("deleted " ++ key) := rfl
  rw [hline]
  apply String.toList_inj.mp
  simp only [String.toList_append, List.append_assoc]
  rfl

theorem line_keptAlive (type : Option Int32) : (keptAlive type).line =
    "WARN plant of type " ++ describeType type ++ " kept alive by undeletable leaves" := by
  have hline : (keptAlive type).line = "WARN" ++ " " ++
      ("plant of type " ++ describeType type ++ " kept alive by undeletable leaves") := rfl
  rw [hline]
  apply String.toList_inj.mp
  simp only [String.toList_append, List.append_assoc]
  rfl

/-- A line begins with the name of its level. -/
theorem level_prefix_line (event : Event) :
    event.level.name.toList <+: event.line.toList := by
  rw [line, String.toList_append, String.toList_append, List.append_assoc]
  exact List.prefix_append _ _

/-- A reader finds in the line of a leaf that enters what the event says. -/
theorem ofLine?_line_linked (key : String) (isInline : Bool) :
    Move.ofLine? (linked key isInline).line = some (.enters key isInline) := by
  have hline := line_linked key isInline
  cases isInline with
  | true =>
      have hfound : between? "TRACE linking new leaf " " (inline key: true)"
          (linked key true).line = some key := between?_eq_some_iff.mpr hline
      rw [Move.ofLine?, hfound]
      rfl
  | false =>
      -- The two remarks end differently, so the first pattern does not take a line of the second.
      have hending : " (inline key: false)".toList <:+ (linked key false).line.toList := by
        rw [hline, String.toList_append]
        exact List.suffix_append _ _
      have hother : between? "TRACE linking new leaf " " (inline key: true)"
          (linked key false).line = none := between?_of_end _ hending (by decide) (by decide)
      have hfound : between? "TRACE linking new leaf " " (inline key: false)"
          (linked key false).line = some key := between?_eq_some_iff.mpr hline
      rw [Move.ofLine?, hother, hfound]
      rfl

/-- A reader finds in the line of a leaf that goes what the event says. -/
theorem ofLine?_line_unlinked (key : String) :
    Move.ofLine? (unlinked key).line = some (.leaves key) := by
  have hline := line_unlinked key
  have hstart : "TRACE freeing leaf ".toList <+: (unlinked key).line.toList := by
    rw [hline, String.toList_append]
    exact List.prefix_append _ _
  have hother (after : String) :
      between? "TRACE linking new leaf " after (unlinked key).line = none :=
    between?_of_start after hstart (by decide) (by decide)
  have hfound : between? "TRACE freeing leaf " "" (unlinked key).line = some key :=
    between?_eq_some_iff.mpr (hline.trans String.append_empty.symm)
  rw [Move.ofLine?, hother, hother, hfound]
  rfl

/-- A reader finds in a line what its event says. -/
theorem ofLine?_line (event : Event) : Move.ofLine? event.line = event.move? := by
  have hprefix := event.level_prefix_line
  cases event with
  | linked key isInline => exact ofLine?_line_linked key isInline
  | unlinked key => exact ofLine?_line_unlinked key
  | keptAlive type => exact Move.ofLine?_of_start hprefix (.inr rfl)
  | created type => exact Move.ofLine?_of_start hprefix (.inl rfl)
  | wrote key seed count outcome => exact Move.ofLine?_of_start hprefix (.inl rfl)
  | read key index outcome => exact Move.ofLine?_of_start hprefix (.inl rfl)
  | deleted key => exact Move.ofLine?_of_start hprefix (.inl rfl)
  | freed => exact Move.ofLine?_of_start hprefix (.inl rfl)

/-- A line of a coarser level is told by its beginning. -/
theorem isTrace_line_of_ne {event : Event} (h : event.level ≠ .trace) :
    isTrace event.line = false := by
  have hprefix := event.level_prefix_line
  have hapart : ∀ level : Level, level ≠ .trace →
      ¬ level.name.toList <+: "TRACE ".toList ∧ ¬ "TRACE ".toList <+: level.name.toList := by
    rintro (_ | _ | _) hne
    · decide
    · decide
    · exact absurd rfl hne
  rw [isTrace, Bool.eq_false_iff, Ne, List.isPrefixOf_iff_prefix]
  intro htrace
  rcases List.prefix_or_prefix_of_prefix hprefix htrace with hp | hp
  · exact (hapart _ h).1 hp
  · exact (hapart _ h).2 hp

/-- A line is of the finest level exactly if its event says something about the chain. -/
theorem isTrace_line (event : Event) : isTrace event.line = event.move?.isSome := by
  have hfine {rest : String} (h : event.line = "TRACE " ++ rest) : isTrace event.line = true := by
    rw [isTrace, List.isPrefixOf_iff_prefix, h, String.toList_append]
    exact List.prefix_append _ _
  cases event with
  | linked key isInline => exact hfine rfl
  | unlinked key => exact hfine rfl
  | _ => exact isTrace_line_of_ne fun h => by cases h

end Event

namespace Journal

/-! ### The log of a list of events -/

/-- What events say about the chain. -/
def told (events : List Event) : List Move := events.filterMap Event.move?

/-- The keys after a list of moves, if all of them can be made. -/
def follow (listed : List String) (moves : List Move) : Option (List String) :=
  moves.foldlM advance listed

/-- At the finest level every event has its line. -/
theorem logLines_trace (events : List Event) :
    logLines .trace events = events.map Event.line := by
  rw [logLines, List.filter_eq_self.mpr]
  intro event _
  cases event <;> rfl

theorem moves_logLines (events : List Event) : moves (logLines .trace events) = told events := by
  rw [logLines_trace, moves, List.filterMap_map]
  congr 1
  funext event
  exact event.ofLine?_line

theorem foldlM_read (listed : List String) (events : List Event) :
    (events.map Event.line).foldlM read listed = follow listed (told events) := by
  induction events generalizing listed with
  | nil => rfl
  | cons event events ih =>
      rw [List.map_cons, List.foldlM_cons, read, event.isTrace_line, event.ofLine?_line, told,
        List.filterMap_cons]
      cases event.move? with
      | none => exact ih listed
      | some move =>
          show (advance listed move).bind _ = (advance listed move).bind _
          congr 1
          funext next
          exact ih next

/-- To read a log is to follow what the events say. -/
theorem replay_logLines (events : List Event) :
    replay (logLines .trace events) = follow [] (told events) := by
  rw [logLines_trace, replay, foldlM_read]

theorem told_append (first second : List Event) :
    told (first ++ second) = told first ++ told second :=
  List.filterMap_append

theorem follow_append (listed : List String) (first second : List Move) :
    follow listed (first ++ second) = (follow listed first).bind (follow · second) :=
  List.foldlM_append

/-- A key that is not listed enters. -/
theorem advance_enters {listed : List String} {key : String} (h : key ∉ listed) :
    advance listed (.enters key (StoredKey.ofString key).isInline) = some (key :: listed) := by
  rw [advance, StoredKey.isInline_ofString]
  exact if_pos ⟨h, rfl⟩

/-- A listed key leaves. -/
theorem advance_leaves {listed : List String} {key : String} (h : key ∈ listed) :
    advance listed (.leaves key) = some (listed.erase key) :=
  if_pos h

end Journal
end PlantStore
