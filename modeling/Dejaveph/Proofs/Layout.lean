import Dejaveph.Proofs.RoundTrip

namespace Dejaveph.Proofs.Layout
open Lib Server Agent RegisteredTerms ServedRanges StoredXorbs RoundTrip

variable {Hash : Type} {core : XetCore Hash} [DecidableEq Hash]

/-- The terms of a file name stored chunks, and these are the chunks of its bytes. -/
structure LaidOut (core : XetCore Hash) (app : AppState Hash (LocalFs Hash)) (b : Bytes)
    (content : Hash → List (Chunk Hash)) (pieces : Hash → List Bytes) (file : FileRecord Hash) :
    Prop where
  inside : Inside content file
  within : ∀ t ∈ file.terms, Within app.blob app.index pieces t
  packed : ∀ t ∈ file.terms, Packed core t.xorb (content t.xorb)
  reads : ∀ t ∈ file.terms, Reads core content pieces t.xorb
  own : (file.terms.map (own content)).flatten = core.nextBlock b

theorem recorded_layout (gate : core.GateLaws) (pipe : core.PipelineLaws)
    {s : State Hash (LocalFs Hash)} (hs : Shelved core LocalFs.object s) {b : Bytes}
    {file : FileRecord Hash}
    (h : Recorded core s.app.index (core.fileHashOf b) file) :
    ∃ content pieces, LaidOut core s.app b content pieces file := by
  have hshelf : ∀ x, ∃ content pieces, x ∈ s.app.index.xorbs →
      Pieced core s.app.blob s.app.index x content pieces := by
    intro x
    by_cases hx : x ∈ s.app.index.xorbs
    · obtain ⟨content, pieces, hp⟩ := hs.pieced gate pipe hx
      exact ⟨content, pieces, fun _ => hp⟩
    · exact ⟨[], [], fun h => absurd h hx⟩
  choose content pieces hpieced using hshelf
  obtain ⟨hxorbs, hin, hown⟩ := recorded_own gate pipe (fun x hx => (hpieced x hx).packed) h
  refine ⟨content, pieces, hin, ?_, fun t ht => (hpieced _ (hxorbs t ht)).packed,
    fun t ht => (hpieced _ (hxorbs t ht)).chunks, hown⟩
  intro t ht
  obtain ⟨xorbMeta, hmeta⟩ := Table.mem_iff.mp (hxorbs t ht)
  have hp := hpieced _ (hxorbs t ht)
  have hlaid := hp.laid xorbMeta hmeta
  refine ⟨⟨xorbMeta, hmeta, hlaid, ?_⟩, (hin t ht).1⟩
  rw [UInt32.le_iff_toNat_le, hlaid.count, ← hp.chunks.length_eq]
  exact (hin t ht).2

section
variable {app : AppState Hash (LocalFs Hash)} {b : Bytes} {content : Hash → List (Chunk Hash)}
  {pieces : Hash → List Bytes} {file : FileRecord Hash}

/-- What is read for the terms of an aligned record are the bytes of the file. -/
theorem LaidOut.whole (gate : core.GateLaws) (pipe : core.PipelineLaws)
    (h : LaidOut core app b content pieces file) (ha : Aligned core file) :
    ((file.terms.map (read content file.terms)).flatten.map Chunk.data).flatten = b := by
  rw [(reads_own gate pipe h.inside h.packed).mpr ha, h.own, pipe.concat]

end

section
variable {pieces : Hash → List Bytes} {file : FileRecord Hash} {url : Hash → String}
  {resp : ReconResponse}

omit [DecidableEq Hash] in
theorem presigned_terms (h : presignTerms core (fun x => .ok (url x))
    (file.terms.map (resolve pieces)) [] ∅ = .ok resp) :
    resp.offsetIntoFirstRange = 0 ∧
      resp.terms = file.terms.map (named core) := by
  obtain ⟨m, hok, _⟩ := presignTerms_spec core url (file.terms.map (resolve pieces)) [] ∅
  obtain rfl := Except.ok.inj (h.symm.trans hok)
  exact ⟨rfl, by simp [reconTerm, resolve, named, Function.comp_def]⟩

/-- The entry that a client picks for a term is that of the term's first cover. -/
theorem presigned_entry (hex : core.HexLaws) (h : presignTerms core (fun x => .ok (url x))
    (file.terms.map (resolve pieces)) [] ∅ = .ok resp) {t : Term Hash} (ht : t ∈ file.terms) :
    ∃ u, pick resp.fetchInfo (named core t) = .ok (fetchInfo url (resolve pieces u)) ∧
      u ∈ file.terms ∧ u.xorb = t.xorb ∧ firstCover file.terms t = some u := by
  obtain ⟨u, hum, hu, hx, _⟩ := firstCover_some ht
  obtain ⟨m, hok, hfetch, _⟩ := presignTerms_spec core url (file.terms.map (resolve pieces)) [] ∅
  obtain rfl := Except.ok.inj (h.symm.trans hok)
  have hfind : ((m.lookup (core.hex t.xorb)).getD []).find? (covers ⟨t.start, t.end_⟩) =
      some (fetchInfo url (resolve pieces u)) := by
    have hkey : ∀ v : Term Hash, (core.hex v.xorb = core.hex t.xorb) ↔ v.xorb = t.xorb :=
      fun v => ⟨hex.hex_injective, congrArg core.hex⟩
    unfold firstCover at hu
    rw [hfetch, AList.lookup_empty, Option.getD_none, List.nil_append, List.filter_map,
      List.map_map, List.find?_map, List.find?_filter]
    simp only [Function.comp_def, resolve, covers, fetchInfo, hkey, Bool.and_eq_true,
      decide_eq_true_eq, hu, Option.map_some]
  cases hl : m.lookup (core.hex t.xorb) with
  | none => simp [hl] at hfind
  | some entries =>
    rw [hl, Option.getD_some] at hfind
    refine ⟨u, ?_, hum, hx, hu⟩
    simp only [pick, named, hl, hfind]

end

end Dejaveph.Proofs.Layout
