import PlantStore.Proofs.Journal.Line
import PlantStore.Proofs.RootName.Named

/-! # The two names of the root

The empty key and `type` are two words for one leaf. Whatever a session makes and removes, no leaf
of the chain ever answers to either, and no removal of either is ever granted. If some of the calls
of a session say one of them for the other, it can take place as before: all calls come upon the
same plants and get the same answers, the same plant is left, and only the lines of a log that
repeat a key as it was asked for show which of them it was. -/

namespace PlantStore

/-- The keys of the root. -/
def rootKeys : List String := ["", rootKey]

theorem leafName_eq_rootKey_iff_mem {key : String} : leafName key = rootKey ↔ key ∈ rootKeys := by
  rw [leafName_eq_rootKey_iff, rootKeys, List.mem_cons, List.mem_singleton]

/-- Keys that stand for one leaf are one word, or both names of the root. -/
theorem eq_or_mem_rootKeys {a b : String} (h : leafName a = leafName b) :
    a = b ∨ a ∈ rootKeys ∧ b ∈ rootKeys := by
  by_cases ha : leafName a = rootKey
  · exact .inr ⟨leafName_eq_rootKey_iff_mem.mp ha, leafName_eq_rootKey_iff_mem.mp (h.symm.trans ha)⟩
  · left
    rw [← leafName_eq_self ha, h, leafName_eq_self (h ▸ ha)]

/-! ### Lines -/

/-- Two lines of a log that are the same, or are lines of a debug plant that show the two names of
the root at one place. -/
def SameLine (a b : String) : Prop :=
  a = b ∨ ∃ old ∈ rootKeys, ∃ new ∈ rootKeys, ∃ before after,
    a = "DEBUG " ++ before ++ old ++ after ∧ b = "DEBUG " ++ before ++ new ++ after

namespace Event

/-- A line that repeats a key as it was asked for. -/
theorem sameLine_of_key {start before after a b : String} {old new : String}
    (hkeys : old = new ∨ old ∈ rootKeys ∧ new ∈ rootKeys) (hstart : start = "DEBUG " ++ before)
    (ha : a = start ++ old ++ after) (hb : b = start ++ new ++ after) : SameLine a b := by
  rcases hkeys with rfl | ⟨hold, hnew⟩
  · exact .inl (ha.trans hb.symm)
  · exact .inr ⟨old, hold, new, hnew, before, after, hstart ▸ ha, hstart ▸ hb⟩

/-- Events that name the same leaf have one level, and lines that differ in its key only. -/
theorem sameLine_of_named {a b : Event} (h : a.named = b.named) :
    a.level = b.level ∧ SameLine a.line b.line := by
  cases a with
  | wrote key seed count outcome =>
      cases b with
      | wrote other _ _ _ =>
          obtain ⟨hkey, rfl, rfl, rfl⟩ := wrote.inj h
          have hstart : "DEBUG set " = "DEBUG " ++ "set " := by decide
          exact ⟨rfl, sameLine_of_key (eq_or_mem_rootKeys hkey) hstart (line_wrote ..)
            (line_wrote ..)⟩
      | _ => cases h
  | read key index outcome =>
      cases b with
      | read other _ _ =>
          obtain ⟨hkey, rfl, rfl⟩ := read.inj h
          have hstart : "DEBUG get " = "DEBUG " ++ "get " := by decide
          exact ⟨rfl, sameLine_of_key (eq_or_mem_rootKeys hkey) hstart (line_read ..)
            (line_read ..)⟩
      | _ => cases h
  | _ =>
      -- No other event repeats a key as it was asked for.
      cases b <;> cases h
      exact ⟨rfl, .inl rfl⟩

end Event

/-- So a log shows the same lines, but for the keys. -/
theorem sameLines_of_named (level : Level) {a b : List Event}
    (h : a.map Event.named = b.map Event.named) :
    List.Forall₂ SameLine (logLines level a) (logLines level b) := by
  induction a generalizing b with
  | nil =>
      obtain rfl := List.map_eq_nil_iff.mp h.symm
      exact .nil
  | cons first rest ih =>
      cases b with
      | nil => cases h
      | cons other others =>
          obtain ⟨hfirst, hrest⟩ := List.cons.inj h
          obtain ⟨hlevel, hline⟩ := Event.sameLine_of_named hfirst
          rw [logLines, logLines, List.filter_cons, List.filter_cons, hlevel]
          split
          · exact .cons hline (ih hrest)
          · exact ih hrest

section

variable [KeyHash]

namespace Plant

/-! ### One plant -/

/-- Both keys of the root are those of the root and of no other leaf, and no removal of either is
granted. -/
structure NamesRoot (p : Plant) : Prop where
  find?_eq : ∀ key ∈ rootKeys, p.find? key = if p.isDefunct then none else some p.root
  chain : ∀ leaf ∈ p.chain, ∀ key ∈ rootKeys, leaf.answersTo key (KeyHash.hash key) = false
  delete_eq : ∀ key ∈ rootKeys, p.delete key = ⟨.error .noSuchLeaf, p, []⟩

theorem Searchable.namesRoot {p : Plant} (h : p.Searchable) : p.NamesRoot := by
  have hplace (key : String) (hkey : key ∈ rootKeys) :
      p.place? key = if p.isDefunct then none else some .root := by
    rw [h.place?_eq, if_pos (leafName_eq_rootKey_iff_mem.mpr hkey)]
  refine ⟨fun key hkey => ?_, fun leaf hleaf key hkey => ?_, fun key hkey => ?_⟩
  · rw [find?, hplace key hkey]
    split <;> rfl
  · rw [Leaf.answersTo_eq (h.hash_eq leaf (List.mem_cons_of_mem _ hleaf))]
    refine beq_eq_false_iff_ne.mpr fun hname => ?_
    have hroot := leafName_eq_rootKey_iff_mem.mpr hkey
    rw [← hname, leafName_of_ne (h.chain_filled leaf hleaf)] at hroot
    exact h.chain_name leaf hleaf hroot
  · rw [delete, hplace key hkey]
    cases p.isDefunct <;> rfl

end Plant

/-! ### Removals in a session -/

namespace Overlap

/-- No removal of the root comes to wait. -/
theorem Sound.not_delete_root {start : Plant} {hold : Call} {asked : List (Call × Plant)}
    {o : Overlap} (h : o.Sound start hold asked) (hreads : ∀ w ∈ o.waiting, w.ReadsOnly) :
    ∀ ask ∈ asked, ∀ key ∈ rootKeys, ask.1 ≠ .delete key := by
  obtain ⟨-, hsnd, hserves⟩ := h.zip_served
  rintro ask hask key hkey hcall
  rw [← hsnd] at hask
  obtain ⟨⟨w, call, met⟩, hentry, rfl⟩ := List.mem_map.mp hask
  obtain rfl : call = .delete key := hcall
  have hroot := leafName_eq_rootKey_iff_mem.mpr hkey
  have hserve : w.Serves met o.plant.unmark (.delete key) := hserves _ hentry
  cases hserve with
  | removing hplace =>
      obtain ⟨-, leaf, hleaf, hname⟩ := h.wellFormed.place?_eq_link_iff.mp hplace
      exact h.wellFormed.chain_name leaf (List.mem_of_getElem? hleaf) (hname.trans hroot)
  | deleting _ hother => exact hother hroot
  | reading => cases hreads _ (List.of_mem_zip hentry).1 _ rfl

/-- Every removal of the root in an overlap is refused. -/
theorem delete_root_refused {p : Plant} (hp : p.WellFormed) {hold : Call} {script : List Step}
    (hadm : Admissible p hold script) :
    ∀ part ∈ parts p hold script, ∀ key ∈ rootKeys, part.call = .delete key →
      part.answer = .unit (.error .noSuchLeaf) := by
  intro part hpart key hkey hcall
  rcases List.mem_cons.mp hpart with rfl | hpart
  · obtain rfl : hold = .delete key := hcall
    cases hadm.1
  rcases List.mem_append.mp hpart with hordinary | hstarted
  · obtain ⟨now, hmet, hanswer⟩ := answerNow_of_mem_ordinaryParts part hordinary
    have hany : ∀ s ∈ script, s.call.Obeys fun _ _ => True := fun _ _ _ _ _ => trivial
    have hwf := effects_begun hp hadm hany part.met
      (mem_plants_of_mem_ordinaryParts part hordinary)
    have hnames := (Plant.Searchable.of_unmark hwf.1.toSearchable).namesRoot
    rw [hanswer, hcall,
      ← congrArg Answer.unit (congrArg Outcome.answer (hnames.delete_eq key hkey)), hmet]
    rfl
  · have hsteps := (begun_sound hp hadm.1).steps hadm.2
    have hreads := readsOnly_steps hadm.2 fun w hw => by cases hw
    exact absurd hcall (hsteps.not_delete_root hreads _ (met_of_mem_startedParts part hstarted)
      key hkey)

end Overlap

namespace Plant

/-- Every removal of the root in a session is refused. -/
theorem Reachable.delete_root_refused {p : Plant} (hp : p.Reachable) {session : List Episode}
    (hadm : p.AdmitsAll session) :
    ∀ part ∈ (p.trace session).parts, ∀ key ∈ rootKeys, part.call = .delete key →
      part.answer = .unit (.error .noSuchLeaf) := by
  induction session generalizing p with
  | nil =>
      intro part hpart
      cases hpart
  | cons e session ih =>
      have hlater := ih (hp.after hadm.1) hadm.2
      intro part hpart key hkey hcall
      cases e with
      | alone call =>
          rcases List.mem_cons.mp hpart with rfl | hrest
          · obtain rfl : call = .delete key := hcall
            exact congrArg (fun outcome => Answer.unit (Outcome.answer outcome))
              (hp.wellFormed.namesRoot.delete_eq key hkey)
          · exact hlater part hrest key hkey hcall
      | overlap hold script =>
          rcases List.mem_append.mp hpart with hfirst | hrest
          · exact Overlap.delete_root_refused hp.wellFormed hadm.1 part hfirst key hkey hcall
          · exact hlater part hrest key hkey hcall

/-! ### The theorem -/

/-- The empty key and `type` are one name. If two sessions differ only in which of the two some of
their calls say,

* one can take place exactly if the other can;
* their calls come upon the same plants and get the same answers, and the same plant is left;
* their logs have the same lines at every level, but for the key in some lines of a debug plant.

No plant in the course of a session has a leaf besides the root that answers to either name, and
every removal of either is refused for want of the leaf. -/
theorem root_names_are_one {p : Plant} (hp : p.Reachable) {session session' : List Episode}
    (hsame : session'.map naming.episode = session.map naming.episode) :
    (p.AdmitsAll session' ↔ p.AdmitsAll session) ∧
    (p.AdmitsAll session →
      (p.trace session').parts.map naming.part = (p.trace session).parts.map naming.part ∧
      (p.trace session').plant = (p.trace session).plant ∧
      p.course session' = p.course session ∧
      (∀ level, List.Forall₂
        (fun report report' =>
          List.Forall₂ SameLine (logLines level report) (logLines level report'))
        (p.trace session).reports (p.trace session').reports) ∧
      (∀ q ∈ p.course session, q.NamesRoot) ∧
      ∀ part ∈ (p.trace session).parts, ∀ key ∈ rootKeys, part.call = .delete key →
        part.answer = .unit (.error .noSuchLeaf)) := by
  have hadmits : p.AdmitsAll session' ↔ p.AdmitsAll session := by
    rw [← naming.admitsAll_iff hp, hsame, naming.admitsAll_iff hp]
  refine ⟨hadmits, fun hadm => ?_⟩
  have hadm' := hadmits.mpr hadm
  have htrace : naming.trace (p.trace session') = naming.trace (p.trace session) := by
    rw [← naming.trace_eq hp hadm', hsame, naming.trace_eq hp hadm]
  have hcourse : p.course session' = p.course session := by
    rw [← naming.course_eq hp hadm', hsame, naming.course_eq hp hadm]
  have hplant : (p.trace session').plant = (p.trace session).plant :=
    show (naming.trace _).plant = (naming.trace _).plant from congrArg Trace.plant htrace
  have hreports : (p.trace session).reports.map (List.map Event.named) =
      (p.trace session').reports.map (List.map Event.named) :=
    (congrArg Trace.reports htrace).symm
  refine ⟨congrArg Trace.parts htrace, hplant, hcourse, fun level => ?_, fun q hq => ?_,
    hp.delete_root_refused hadm⟩
  · have hsame := List.forall₂_eq_eq_eq.symm ▸ hreports
    exact (List.forall₂_map_left_iff.mp (List.forall₂_map_right_iff.mp hsame)).imp
      fun report report' hreport => sameLines_of_named level hreport
  · exact (Searchable.of_unmark (hp.wellFormed_course hadm q hq).toSearchable).namesRoot

end Plant

end

/-- The root of a debug plant is written to under one name and read under the other while it is
read; then both names are tried for a removal. -/
theorem Plant.root_names_are_one_of_mixed :
    let p := ((make 7 true).perform (.setFlags "" .empty)).plant
    let session : List Episode :=
      [.overlap (.getAll "") [.start (.set "type" .int [.int 8]), .now (.setHostWord "type" 3),
        .start (.get "type" 0)], .alone (.get "" 0), .alone (.delete ""), .alone (.delete "type")]
    let session' : List Episode :=
      [.overlap (.getAll "type") [.start (.set "" .int [.int 8]), .now (.setHostWord "" 3),
        .start (.get "" 0)], .alone (.get "type" 0), .alone (.delete "type"), .alone (.delete "")]
    p.Reachable ∧ session'.map naming.episode = session.map naming.episode ∧
      p.AdmitsAll session ∧ p.AdmitsAll session' ∧
      (p.trace session').parts.map naming.part = (p.trace session).parts.map naming.part ∧
      (p.trace session).parts.map Part.answer = [.values (.ok [.int 7]),
        .unit (.error .concurrency), .unit (.ok ()), .value (.ok (.int 8)), .value (.ok (.int 8)),
        .unit (.error .noSuchLeaf), .unit (.error .noSuchLeaf)] ∧
      (p.trace session).reports.map (logLines .debug) =
        [[], ["DEBUG get [0]: Ok(Int(8))"], [], []] ∧
      (p.trace session').reports.map (logLines .debug) =
        [[], ["DEBUG get type[0]: Ok(Int(8))"], [], []] := by
  intro p session session'
  have hp : p.Reachable := .call (.make 7 true) _
  have hsame : session'.map naming.episode = session.map naming.episode := rfl
  have hadm : p.AdmitsAll session := by decide
  obtain ⟨hadmits, hrest⟩ := root_names_are_one hp hsame
  obtain ⟨hparts, -⟩ := hrest hadm
  exact ⟨hp, hsame, hadm, hadmits.mpr hadm, hparts, by decide, by decide, by decide⟩

end PlantStore
