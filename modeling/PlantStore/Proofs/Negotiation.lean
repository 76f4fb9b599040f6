import PlantStore.Proofs.Transparency.Context

/-! # Negotiation

A host asks for a version and gets one that is served, or none. What it gets is its own version cut
off at the newest one, so that asking again for what was served gives the same. Versions and options
meet in one place only: a version newer than the newest is served if the host permits it. What a
negotiation reports follows from its outcome. -/

namespace PlantStore

/-- Options that contain others contain all that those contain. -/
theorem InitFlags.contains_trans {more flags wanted : InitFlags} (h : more.contains flags = true)
    (hw : flags.contains wanted = true) : more.contains wanted = true := by
  rw [contains, hasBits, beq_iff_eq] at h hw ⊢
  rw [← hw, ← UInt32.and_assoc, h]

namespace Context

/-! ### The version that is served -/

/-- Whether a version is served to a host with given options. -/
def Serves (requested : Int32) (flags : InitFlags) : Prop :=
  200 ≤ requested.toInt ∧ (requested.toInt ≤ 202 ∨ flags.contains .permissive = true)

/-- The version that is served if any is: the requested one, but none newer than the newest. -/
def clamp (requested : Int32) : Int32 :=
  if 202 < requested.toInt then newestVersion else requested

theorem toInt_clamp (requested : Int32) : (clamp requested).toInt = min requested.toInt 202 := by
  have hnewest : newestVersion.toInt = 202 := by decide
  rw [clamp]
  split <;> omega

/-- What was served once is served to every host. -/
theorem Serves.again {requested : Int32} {flags : InitFlags} (h : Serves requested flags)
    (other : InitFlags) : Serves (clamp requested) other := by
  have hold := h.1
  rw [Serves, toInt_clamp]
  omega

/-- Asking for what was served does not change it. -/
theorem clamp_clamp (requested : Int32) : clamp (clamp requested) = clamp requested := by
  rw [← Int32.toInt_inj, toInt_clamp, toInt_clamp]
  omega

theorem clamp_le_clamp {a b : Int32} (h : a ≤ b) : clamp a ≤ clamp b := by
  rw [Int32.le_iff_toInt_le] at h ⊢
  rw [toInt_clamp, toInt_clamp]
  omega

/-- More options never have a version refused. -/
theorem Serves.mono {requested : Int32} {flags more : InitFlags} (h : Serves requested flags)
    (hmore : more.contains flags = true) : Serves requested more :=
  ⟨h.1, h.2.imp_right (InitFlags.contains_trans hmore)⟩

/-! ### Negotiating a version -/

/-- What is reported of a version that is served, before the context is made. -/
def clampEvents (requested : Int32) : List NegotiationEvent :=
  if 202 < requested.toInt then [.clamped requested] else []

/-- What is reported of a version that is refused. -/
def refusalEvent (requested : Int32) : NegotiationEvent :=
  if requested.toInt < 200 then .tooOld requested else .tooNew requested

theorem negotiate_of_serves {requested : Int32} {flags : InitFlags} (h : Serves requested flags) :
    negotiate requested flags = (.ok (clamp requested), clampEvents requested) := by
  obtain ⟨hold, hnew⟩ := h
  have holdest : ¬ requested < oldestVersion := by
    rw [Int32.lt_iff_toInt_lt, show oldestVersion.toInt = 200 by decide]
    omega
  have hnewest : requested ≤ newestVersion ↔ ¬ 202 < requested.toInt := by
    rw [Int32.le_iff_toInt_le, show newestVersion.toInt = 202 by decide]
    omega
  rw [negotiate, if_neg holdest]
  by_cases hlater : 202 < requested.toInt
  · have hpermissive : flags.contains .permissive = true := hnew.resolve_left (by omega)
    rw [if_neg (fun hle => hnewest.mp hle hlater), if_pos hpermissive, clamp, clampEvents,
      if_pos hlater, if_pos hlater]
  · rw [if_pos (hnewest.mpr hlater), clamp, clampEvents, if_neg hlater, if_neg hlater]

theorem negotiate_of_not_serves {requested : Int32} {flags : InitFlags}
    (h : ¬ Serves requested flags) :
    negotiate requested flags = (.error .badVersion, [refusalEvent requested]) := by
  have holdest : requested < oldestVersion ↔ requested.toInt < 200 := by
    rw [Int32.lt_iff_toInt_lt, show oldestVersion.toInt = 200 by decide]
  rw [negotiate, refusalEvent]
  by_cases hold : requested.toInt < 200
  · rw [if_pos (holdest.mpr hold), if_pos hold]
  · have hnew : ¬ requested.toInt ≤ 202 ∧ ¬ flags.contains .permissive = true :=
      not_or.mp fun hor => h ⟨by omega, hor⟩
    have hnewest : ¬ requested ≤ newestVersion := by
      rw [Int32.le_iff_toInt_le, show newestVersion.toInt = 202 by decide]
      exact hnew.1
    rw [if_neg (fun hlt => hold (holdest.mp hlt)), if_neg hnewest, if_neg hnew.2, if_neg hold]

section

variable [KeyHash]

theorem init_of_serves {requested : Int32} {flags : InitFlags} (h : Serves requested flags) :
    init requested flags = (.ok (serving (clamp requested) flags),
      clampEvents requested ++
        if flags.contains .debug then [.initialised (clamp requested) flags] else []) := by
  rw [init, negotiate_of_serves h]

theorem init_of_not_serves {requested : Int32} {flags : InitFlags} (h : ¬ Serves requested flags) :
    init requested flags = (.error .badVersion, [refusalEvent requested]) := by
  rw [init, negotiate_of_not_serves h]

/-- A negotiation succeeds exactly if the version is served to the host. -/
theorem init_eq_ok_iff {requested : Int32} {flags : InitFlags} {c : Context} :
    (init requested flags).1 = .ok c ↔
      Serves requested flags ∧ c = serving (clamp requested) flags := by
  by_cases h : Serves requested flags
  · rw [init_of_serves h]
    simp [h, eq_comm]
  · rw [init_of_not_serves h]
    simp [h]

/-! ### The theorem -/

/-- What a host has in hand after a successful negotiation. -/
structure Granted (requested : Int32) (flags : InitFlags) (c : Context) : Prop where
  version_eq : c.version.toInt = min requested.toInt 202
  flags_eq : c.flags = flags
  /-- The plants of the context are debug plants if the options say so. -/
  debug : ∀ type, (c.newPlant type).plant.isDebug = flags.contains .debug
  /-- Asking again for the version in hand gives it, whatever the options. -/
  again : ∀ other, ∃ c', (init c.version other).1 = .ok c' ∧ c'.version = c.version

/-- What a successful negotiation reports. -/
structure Reported (requested : Int32) (flags : InitFlags) (c : Context)
    (events : List NegotiationEvent) : Prop where
  once : events.Nodup
  level : ∀ event ∈ events, event.level = .debug
  clamped : ∀ version, .clamped version ∈ events ↔ version = requested ∧ 202 < requested.toInt
  initialised : ∀ version options, .initialised version options ∈ events ↔
    version = c.version ∧ options = flags ∧ flags.contains .debug = true
  /-- The version in hand is reported at the end. -/
  last : flags.contains .debug = true →
    events.getLast? = some (.initialised c.version flags)

theorem Serves.granted {requested : Int32} {flags : InitFlags} (h : Serves requested flags) :
    Granted requested flags (serving (clamp requested) flags) where
  version_eq := toInt_clamp requested
  flags_eq := rfl
  debug _ := rfl
  again other := ⟨_, init_eq_ok_iff.mpr ⟨h.again other, rfl⟩, clamp_clamp requested⟩

theorem Serves.reported {requested : Int32} {flags : InitFlags} (h : Serves requested flags) :
    Reported requested flags (serving (clamp requested) flags)
      (init requested flags).2 := by
  rw [init_of_serves h, clampEvents]
  by_cases hlater : 202 < requested.toInt <;> by_cases hdebug : flags.contains .debug = true
  all_goals constructor <;> simp [hlater, hdebug, NegotiationEvent.level, serving]

/-- A version is served exactly if it is not older than the oldest, and not newer than the newest
unless the host permits it. Then the host gets its version cut off at the newest, its options as
they are, and debug plants if they say so; asking again for what it got gives the same. A newer version
never gets an older one, and more options never have a version refused. A refusal is reported by one
warning and nothing else. A success comes without a warning: a version that was cut off is reported,
and at the end, to hosts with the option `debug`, the version that is served. -/
theorem negotiation_clamps (requested : Int32) (flags : InitFlags) :
    ((∃ c, (init requested flags).1 = .ok c) ↔ Serves requested flags) ∧
    (∀ c, (init requested flags).1 = .ok c →
      Granted requested flags c ∧ Reported requested flags c (init requested flags).2) ∧
    (∀ e, (init requested flags).1 = .error e →
      e = .badVersion ∧ ∃ event, (init requested flags).2 = [event] ∧ event.level = .warn) ∧
    (∀ later options c c', (init requested flags).1 = .ok c → (init later options).1 = .ok c' →
      requested ≤ later → c.version ≤ c'.version) ∧
    (∀ more : InitFlags, more.contains flags = true → (∃ c, (init requested flags).1 = .ok c) →
      ∃ c, (init requested more).1 = .ok c) := by
  have hiff (options : InitFlags) :
      (∃ c, (init requested options).1 = .ok c) ↔ Serves requested options :=
    ⟨fun ⟨_, hc⟩ => (init_eq_ok_iff.mp hc).1, fun h => ⟨_, init_eq_ok_iff.mpr ⟨h, rfl⟩⟩⟩
  refine ⟨hiff flags, ?_, ?_, ?_, ?_⟩
  · intro c hc
    obtain ⟨h, rfl⟩ := init_eq_ok_iff.mp hc
    exact ⟨h.granted, h.reported⟩
  · intro e he
    have h : ¬ Serves requested flags := by
      intro h
      rw [init_of_serves h] at he
      cases he
    rw [init_of_not_serves h] at he ⊢
    obtain rfl : .badVersion = e := Except.error.inj he
    refine ⟨rfl, _, rfl, ?_⟩
    rw [refusalEvent]
    split <;> rfl
  · intro later options c c' hc hc' hle
    obtain ⟨-, rfl⟩ := init_eq_ok_iff.mp hc
    obtain ⟨-, rfl⟩ := init_eq_ok_iff.mp hc'
    exact clamp_le_clamp hle
  · intro more hmore h
    exact (hiff more).mpr (((hiff flags).mp h).mono hmore)

end

example : (init 2147483647 ⟨3⟩).2.map NegotiationEvent.line =
    ["DEBUG ABI 2147483647 requested, serving 202",
      "DEBUG weed initialised: ABI 202, flags InitFlags(PERMISSIVE | DEBUG)"] := by
  decide +kernel

end Context
end PlantStore
