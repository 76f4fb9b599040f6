import PlantStore.Proofs.Protection.Protected
import PlantStore.Proofs.Transparency.Describe
import PlantStore.Proofs.Transparency.Trace

/-! # Hashing is transparent

Many keys share a hash: two blocks of two letters move it alike, so that all words made of as many
such blocks do. Nothing depends on it. A search finds what a search by keys alone finds, and a store
with any other hash function shows the same trace of every session, but for the number of the hash
in the description of a plant. -/

namespace PlantStore

/-! ### Keys that share a hash -/

/-- Two blocks that move the hash of a key alike. -/
def hashBlock : Bool → String
  | false => "Ez"
  | true => "FY"

theorem foldl_hashBlock (block : Bool) (h : UInt32) :
    (Text.utf8Bytes (hashBlock block)).foldl hashStep h = h * 1089 + 2399 := by
  cases block with
  | false =>
      show (h * 33 + 69) * 33 + 122 = h * 1089 + 2399
      grind
  | true =>
      show (h * 33 + 70) * 33 + 89 = h * 1089 + 2399
      grind

/-- Two words of equally many blocks have one hash. -/
theorem hashKey_join_blocks {a b : List Bool} (h : a.length = b.length) :
    hashKey (String.join (a.map hashBlock)) = hashKey (String.join (b.map hashBlock)) := by
  have hfold : ∀ start, (Text.utf8Bytes (String.join (a.map hashBlock))).foldl hashStep start =
      (Text.utf8Bytes (String.join (b.map hashBlock))).foldl hashStep start := by
    induction a generalizing b with
    | nil =>
        obtain rfl := List.length_eq_zero_iff.mp h.symm
        exact fun _ => rfl
    | cons block a ih =>
        cases b with
        | nil => cases h
        | cons other b =>
            intro start
            rw [List.map_cons, List.map_cons, String.join_cons, String.join_cons,
              Text.utf8Bytes_append, Text.utf8Bytes_append, List.foldl_append, List.foldl_append,
              foldl_hashBlock, foldl_hashBlock]
            exact ih (Nat.succ.inj h) _
  exact hfold hashStart

namespace Plant

/-! ### A search by keys alone -/

/-- Where a search that compares nothing but keys finds the leaf of a key. -/
def seek? (p : Plant) (key : String) : Option Place :=
  if p.isDefunct then none
  else if key.isEmpty || p.root.name == key then some .root
  else (p.chain.findIdx? (·.name == key)).map .link

theorem seek?_unmark (p : Plant) (key : String) : p.unmark.seek? key = p.seek? key := by
  rw [seek?, seek?, isDefunct_unmark]
  rfl

variable [KeyHash]

/-- Where each leaf stores the hash of its name, a search finds what one by keys alone finds. -/
theorem Hashed.place?_eq_seek? {p : Plant} (h : p.Hashed) (key : String) :
    p.place? key = p.seek? key := by
  have hroot : p.root.answersTo key (KeyHash.hash key) = (p.root.name == key) :=
    Leaf.answersTo_eq (h p.root List.mem_cons_self) key
  have hchain := Leaf.findIdx?_answersTo
    (fun leaf hleaf => h leaf (List.mem_cons_of_mem p.root hleaf)) key
  simp only [place?, seek?, hroot, hchain, Bool.or_eq_true]
  split
  · rfl
  · by_cases hempty : key.isEmpty = true
    · rw [if_pos hempty, if_pos (.inl hempty)]
    · by_cases hname : (p.root.name == key) = true
      · rw [if_neg hempty, if_pos hname, if_pos (.inr hname)]
      · rw [if_neg hempty, if_neg hname, if_neg (by simp [hempty, hname])]

/-- Two keys for which one leaf is found stand for one name. -/
theorem Searchable.leafName_eq {p : Plant} (h : p.Searchable) {key other : String} {place : Place}
    (hkey : p.place? key = some place) (hother : p.place? other = some place) :
    leafName key = leafName other := by
  cases place with
  | root =>
      exact (h.place?_eq_root_iff.mp hkey).2.trans (h.place?_eq_root_iff.mp hother).2.symm
  | link index =>
      obtain ⟨-, leaf, hleaf, hname⟩ := h.place?_eq_link_iff.mp hkey
      obtain ⟨-, same, hsame, hsamename⟩ := h.place?_eq_link_iff.mp hother
      obtain rfl : leaf = same := Option.some.inj (hleaf.symm.trans hsame)
      exact hname.symm.trans hsamename

/-- In the whole course of a session searches go by keys alone. -/
theorem Reachable.place?_moments {p : Plant} (hp : p.Reachable) {session : List Episode}
    (hadm : p.AdmitsAll session) : ∀ q ∈ p.moments session, ∀ key,
      q.place? key = q.seek? key ∧ ∀ other place, q.place? key = some place →
        q.place? other = some place → leafName key = leafName other := by
  have hsession : ∀ e ∈ session, e.Obeys fun _ _ => True := fun _ _ _ _ _ _ _ => trivial
  intro q hq key
  obtain ⟨hwf, -⟩ := hp.effects_moments hadm hsession q hq
  have hs := hwf.toSearchable
  refine ⟨?_, fun other place hkey hother => ?_⟩
  · rw [← q.place?_unmark, ← q.seek?_unmark]
    exact Hashed.place?_eq_seek? hs.hash_eq key
  · rw [← q.place?_unmark] at hkey hother
    exact hs.leafName_eq hkey hother

/-! ### The theorem -/

omit [KeyHash] in
/-- Only the answer to `describe` depends on the hash function. -/
theorem answer_recast_congr (g g' : String → UInt32) (quiet : Bool) {part : Part}
    (h : part.call ≠ .describe) : (part.recast g quiet).answer = (part.recast g' quiet).answer := by
  obtain ⟨role, call, met, answer⟩ := part
  cases call with
  | describe => exact absurd rfl h
  | _ => rfl

/-- Replacing the hash function by any other changes nothing that is to be seen of a session on a
new plant. The session can take place as before, and its trace is the same, with all leaves and
reports, but for the hashes that the leaves store. The answers are the same, but for the number of
the hash of the root in the description of a plant. Searches go by keys alone, and find one leaf for
two keys only if they stand for one name, although there are arbitrarily many keys of one hash. -/
theorem trace_of_any_hash (type : Int32) (debug : Bool) {session : List Episode}
    (hadm : (make type debug).AdmitsAll session) (g : String → UInt32) :
    let p := make type debug
    let t := p.trace session
    @AdmitsAll ⟨g⟩ (@make ⟨g⟩ type debug) session ∧
    @trace ⟨g⟩ (@make ⟨g⟩ type debug) session = t.recast g false ∧
    (∀ part ∈ t.parts, part.call ≠ .describe → (part.recast g false).answer = part.answer) ∧
    (∀ part ∈ t.parts, part.call = .describe →
      ∃ a b, part.answer = .text a ∧ (part.recast g false).answer = .text b ∧
        Text.SameButFor (Text.numeral part.met.root.hash.toNat)
          (Text.numeral (g part.met.root.name).toNat) a b) ∧
    (∀ q ∈ p.moments session, ∀ key, q.place? key = q.seek? key ∧
      ∀ other place, q.place? key = some place → q.place? other = some place →
        leafName key = leafName other) ∧
    ∀ a b : List Bool, a.length = b.length →
      hashKey (String.join (a.map hashBlock)) = hashKey (String.join (b.map hashBlock)) := by
  intro p t
  have hp : p.Hashed := .make type debug
  have hmake : @make ⟨g⟩ type debug = p.recast g false := by
    rw [← make_recast, Bool.not_false, Bool.and_true]
  refine ⟨?_, ?_, ?_, ?_, (Reachable.make type debug).place?_moments hadm,
    fun _ _ => hashKey_join_blocks⟩
  · rw [hmake]
    exact (hp.admitsAll_recast g false session).mpr hadm
  · rw [hmake]
    exact hp.trace_recast g false hadm
  · intro part hpart hcall
    have hself := congrArg Part.answer (hp.recast_of_mem_parts hadm hpart)
    exact (answer_recast_congr g KeyHash.hash false hcall).trans hself
  · intro part hpart hcall
    have hself := hp.recast_of_mem_parts hadm hpart
    have hmet : part.met.recast KeyHash.hash false = part.met := congrArg Part.met hself
    refine ⟨part.met.describe, (part.met.recast g false).describe, ?_, ?_,
      part.met.describe_recast g⟩
    · rw [← hself]
      simp only [Part.recast, hcall, hmet]
    · simp only [Part.recast, hcall]

end Plant

namespace Plant

/-- A session in which two keys of one hash are written, read, described and removed, with a hash
function that makes all hashes one. -/
theorem trace_of_constant_hash :
    let session : List Episode :=
      [.alone (.set "Ez" .int [.int 1]), .alone (.set "FY" .int [.int 2]),
        .overlap (.getAll "Ez") [.now .describe, .start (.set "Ez" .int [.int 3]),
          .start (.delete "FY"), .start (.getAll "Ez")],
        .alone (.get "FY" 0), .alone (.getAll "Ez")]
    let p := Plant.make 7 true
    let g : String → UInt32 := fun _ => 0
    hashKey "Ez" = hashKey "FY" ∧ p.AdmitsAll session ∧
      @trace ⟨g⟩ (@make ⟨g⟩ 7 true) session = (p.trace session).recast g false ∧
      (p.trace session).plant.names = ["type", "Ez"] := by
  intro session p g
  have hadm : p.AdmitsAll session := by decide
  obtain ⟨-, htrace, -, -, -, hblocks⟩ := trace_of_any_hash 7 true hadm g
  exact ⟨hblocks [false] [true] rfl, hadm, htrace, by decide⟩

end Plant

end PlantStore
