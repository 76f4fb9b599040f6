import PlantStore.Proofs.Rewording

/-! # Sessions with masked flags

A change of flags takes the callers' half of the word that it is given and nothing else. So a
session in which all changes ask for that half only goes like the one in which they ask for whole
words: the calls wait alike, get the same answers, and come upon the same plants. -/

namespace PlantStore

/-! ### Words -/

namespace LeafFlags

/-- The half of a word that belongs to the callers. -/
def callers (flags : LeafFlags) : LeafFlags := ⟨flags.bits &&& 0x0000FFFF⟩

/-- Callers see their own half of a word. -/
theorem visible_eq_callers (flags : LeafFlags) : flags.visible = flags.callers := rfl

/-- Callers see nothing of the store's half. -/
theorem reserved_visible (flags : LeafFlags) : flags.visible.bits &&& reserved.bits = 0 := by
  have hword : (⟨flags.visible.bits &&& reserved.bits⟩ : LeafFlags) = empty := by
    apply ext_bit
    intro i
    have hand : (⟨flags.visible.bits &&& reserved.bits⟩ : LeafFlags).bit i =
        (flags.visible.bit i && reserved.bit i) := by
      simp [bit]
    rw [hand, bit_visible, bit_empty, Bool.and_assoc, Bool.not_and_self, Bool.and_false]
  exact congrArg bits hword

/-- Nothing but the callers' half is put in place. -/
theorem replaceVisible_callers (flags wanted : LeafFlags) :
    flags.replaceVisible wanted.callers = flags.replaceVisible wanted := by
  rw [← visible_eq_callers]
  apply ext_bit
  intro i
  rw [bit_replaceVisible, bit_replaceVisible, bit_visible, Bool.and_assoc, Bool.and_self]

end LeafFlags

/-! ### Masking -/

/-- The call, asking for flags of the callers only. -/
def Call.masked : Call → Call
  | setFlags key flags => setFlags key flags.callers
  | call => call

/-- The waiting call, asking for flags of the callers only. -/
def Waiting.masked : Waiting → Waiting
  | flagging name flags => flagging name flags.callers
  | w => w

def Step.masked : Step → Step
  | now call => now call.masked
  | start call => start call.masked

def Episode.masked : Episode → Episode
  | alone call => alone call.masked
  | overlap hold script => overlap hold.masked (script.map Step.masked)

def Part.masked (part : Part) : Part := { part with call := part.call.masked }

/-- The trace with masked calls. All else that is to be seen is as before. -/
def Trace.masked (t : Trace) : Trace := { t with parts := t.parts.map Part.masked }

variable [KeyHash]

/-! ### Calls -/

theorem Plant.setFlags_callers (p : Plant) (key : String) (flags : LeafFlags) :
    p.setFlags key flags.callers = p.setFlags key flags := by
  simp only [setFlags, LeafFlags.replaceVisible_callers]

/-- A masked call is stopped in the same way. -/
theorem Stopped.of?_masked (p : Plant) (hold : Call) : of? p hold.masked = of? p hold := by
  cases hold <;> rfl

/-- A masked call is made at once like the call. -/
theorem Overlap.answerNow_masked (o : Overlap) (call : Call) :
    o.answerNow call.masked = o.answerNow call := by
  cases call with
  | setFlags key flags =>
      exact congrArg (Outcome.map Answer.unit) (o.plant.setFlags_callers key flags)
  | _ => rfl

/-- A masked call waits in the same way, masked. -/
theorem Overlap.wait?_masked (o : Overlap) (call : Call) :
    o.wait? call.masked = (o.wait? call).map Waiting.masked := by
  have hread : ∀ call, o.wait? call = (if o.readsAwaited call then some (o.waitingRead call)
      else none) → o.wait? call = (o.wait? call).map Waiting.masked := by
    intro call hwait
    have hkept : (o.waitingRead call).masked = o.waitingRead call := by cases call <;> rfl
    rw [hwait]
    split
    · rw [Option.map_some, hkept]
    · rfl
  -- No call but a change of flags comes to wait with flags, wherever it gets stuck.
  cases call with
  | set key seed values =>
      show o.waitSet? key seed values = (o.waitSet? key seed values).map Waiting.masked
      simp only [waitSet?]
      repeat' split
      all_goals rfl
  | setFlags key flags =>
      show o.waitFlags? key flags.callers = (o.waitFlags? key flags).map Waiting.masked
      simp only [waitFlags?]
      repeat' split
      all_goals rfl
  | delete key =>
      show o.waitDelete? key = (o.waitDelete? key).map Waiting.masked
      simp only [waitDelete?]
      repeat' split
      all_goals rfl
  | free =>
      show o.waitFree? = o.waitFree?.map Waiting.masked
      simp only [waitFree?]
      repeat' split
      all_goals rfl
  | _ => exact hread _ rfl

/-- A masked call does and answers the same at its turn. -/
theorem Waiting.finish_masked (w : Waiting) (seen p : Plant) :
    w.masked.finish seen p = w.finish seen p := by
  cases w with
  | flagging name flags => exact congrArg finish.done (p.setFlags_callers name flags)
  | _ => rfl

/-- Calls that ask for flags of the callers only. -/
def masking : Rewording where
  call := Call.masked
  waiting := Waiting.masked
  event := id
  of? _ c := Stopped.of?_masked _ c
  answerNow _ c := by
    rw [Overlap.answerNow_masked, Outcome.retold, List.map_id]
  wait? _ c := Overlap.wait?_masked _ c
  wantsRights w := by cases w <;> rfl
  marksRoot w := by cases w <;> rfl
  publishes w _ := by cases w <;> rfl
  publish w _ := by cases w <;> rfl
  finish w _ _ _ _ := w.finish_masked _ _

/-! ### Sessions -/

theorem Episode.masked_eq : Episode.masked = masking.episode := by
  have hstep : Step.masked = masking.step := by
    funext s
    cases s <;> rfl
  funext e
  cases e with
  | alone call => rfl
  | overlap hold script =>
      rw [masked, hstep]
      rfl

theorem Trace.masked_eq (t : Trace) : t.masked = masking.trace t := by
  have hreports : t.reports.map (List.map masking.event) = t.reports := by
    show t.reports.map (List.map id) = _
    rw [List.map_id_fun, List.map_id]
  rw [Rewording.trace, hreports]
  rfl

namespace Plant

variable {p : Plant} (hp : p.Reachable) {session : List Episode}

include hp

/-- A masked session can take place exactly if the session can. -/
theorem Reachable.admitsAll_masked :
    p.AdmitsAll (session.map Episode.masked) ↔ p.AdmitsAll session := by
  rw [Episode.masked_eq]
  exact masking.admitsAll_iff hp

variable (hadm : p.AdmitsAll session)

include hadm

/-- The plants in the course of a masked session are those of the session. -/
theorem Reachable.course_masked : p.course (session.map Episode.masked) = p.course session := by
  rw [Episode.masked_eq]
  exact masking.course_eq hp hadm

/-- In a masked session all calls get the same answers on the same plants, the same is reported, and
the same plant is left. -/
theorem Reachable.trace_masked :
    p.trace (session.map Episode.masked) = (p.trace session).masked := by
  rw [Episode.masked_eq, Trace.masked_eq]
  exact masking.trace_eq hp hadm

end Plant

end PlantStore
