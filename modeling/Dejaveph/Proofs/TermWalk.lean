import Mathlib.Data.List.Sublists
import Dejaveph.Agent.Ingest
import Dejaveph.PlainCore

namespace Dejaveph.Proofs.TermWalk
open Lib Server Agent

variable {Hash : Type}

/-- A chunk with the result of its lookup. -/
abbrev Looked (Hash : Type) := Chunk Hash × Option Agent.ChunkLoc

/-- The chunks at the positions `[i, j)`. -/
def chunksAt (locs : List (Looked Hash)) (i j : ℕ) : List (Chunk Hash) :=
  (Pieces.slice locs i j).map Prod.fst

/-- The chunks whose lookup missed, in order. -/
def missed (locs : List (Looked Hash)) : List (Chunk Hash) :=
  (locs.filter (fun p => p.2.isNone)).map Prod.fst

/-- The positions `[i, j)` are hits in one xorb at consecutive indices, which the
next hit does not continue. -/
structure HitRun (locs : List (Looked Hash)) (i j : ℕ) (t : RegisterTerm) : Prop where
  hits : ∀ k, i ≤ k → k < j → ∃ c idx, locs[k]? = some (c, some (t.xorb, idx)) ∧
    idx.toNat = t.start.toNat + (k - i)
  maximal : ∀ c idx, locs[j]? = some (c, some (t.xorb, idx)) →
    idx.toNat ≠ t.start.toNat + (j - i)

/-- The positions `[i, j)` are misses, packed in order into one xorb within its bounds. -/
structure MissRun (core : XetCore Hash) (locs : List (Looked Hash)) (i j : ℕ)
    (t : RegisterTerm) : Prop where
  misses : ∀ k, i ≤ k → k < j → ∃ c, locs[k]? = some (c, none)
  packed : ∃ serialized, core.fromXorb (chunksAt locs i j) = .ok serialized ∧
    t.xorb = core.hex serialized.hash
  start : t.start = 0
  few : j - i ≤ maxXorbChunks
  small : unpackedLength (chunksAt locs i j) ≤ maxXorbUncompressed ∨ j - i = 1

/-- The term of an interval. -/
structure Emitted (core : XetCore Hash) (locs : List (Looked Hash)) (p : ℕ × ℕ)
    (t : RegisterTerm) : Prop where
  span : t.end_.toNat = t.start.toNat + (p.2 - p.1)
  unpacked : t.unpackedLength = unpackedLength (chunksAt locs p.1 p.2)
  run : HitRun locs p.1 p.2 t ∨ MissRun core locs p.1 p.2 t

/-- The terms of the first `n` positions. -/
def Walked (core : XetCore Hash) (locs : List (Looked Hash)) (n : ℕ) (terms : List RegisterTerm) :
    Prop :=
  ∃ intervals, Pieces.Tiles 0 intervals n ∧ List.Forall₂ (Emitted core locs) intervals terms

theorem walked_nil (core : XetCore Hash) (locs : List (Looked Hash)) : Walked core locs 0 [] :=
  ⟨[], rfl, .nil⟩

section
variable {core : XetCore Hash} {locs : List (Looked Hash)} {n m : ℕ} {terms : List RegisterTerm}
  {t : RegisterTerm}

theorem Walked.snoc (h : Walked core locs n terms) (hlt : n < m) (ht : Emitted core locs (n, m) t) :
    Walked core locs m (terms ++ [t]) := by
  obtain ⟨intervals, htiles, hall⟩ := h
  exact ⟨intervals ++ [(n, m)], htiles.snoc hlt, List.rel_append hall (.cons ht .nil)⟩

theorem tiles_sum {a b : ℕ} {intervals : List (ℕ × ℕ)} (htiles : Pieces.Tiles a intervals b)
    (hall : List.Forall₂ (Emitted core locs) intervals terms) :
    a ≤ b ∧ (terms.map RegisterTerm.unpackedLength).sum = unpackedLength (chunksAt locs a b) := by
  induction hall generalizing a with
  | nil =>
    obtain rfl : a = b := htiles
    exact ⟨Nat.le_refl a, by simp [chunksAt, unpackedLength]⟩
  | @cons p t intervals terms ht _ ih =>
    obtain ⟨i, j⟩ := p
    obtain ⟨rfl, hlt, hrest⟩ := htiles
    obtain ⟨hle, hsum⟩ := ih hrest
    refine ⟨by omega, ?_⟩
    rw [List.map_cons, List.sum_cons, hsum, ht.unpacked, ← unpackedLength_append]
    simp only [chunksAt, ← List.map_append]
    rw [Pieces.slice_append (Nat.le_of_lt hlt) hle]

end

section
variable {c : Chunk Hash} {xorb : String} {e : UInt32} {rest : List (Looked Hash)}

/-- The hits that continue a run are cut off a list of lookups, until one does not. -/
structure HitCut (xorb : String) (e next : UInt32) (taken rest : List (Looked Hash)) : Prop where
  hits : ∀ k p, taken[k]? = some p → ∃ idx, p.2 = some (xorb, idx) ∧ idx.toNat = e.toNat + k
  expected : next.toNat = e.toNat + taken.length
  stops : ∀ c idx, rest.head? = some (c, some (xorb, idx)) → idx ≠ next

theorem HitCut.cons {next : UInt32} {taken rest : List (Looked Hash)}
    (he : (e + 1).toNat = e.toNat + 1) (h : HitCut xorb (e + 1) next taken rest)
    (c : Chunk Hash) : HitCut xorb e next ((c, some (xorb, e)) :: taken) rest := by
  refine ⟨?_, ?_, h.stops⟩
  · intro k p hk
    cases k with
    | zero =>
      obtain rfl := Option.some.inj hk
      exact ⟨e, rfl, rfl⟩
    | succ k =>
      obtain ⟨idx, hp, hidx⟩ := h.hits k p hk
      refine ⟨idx, hp, ?_⟩
      omega
  · have hnext := h.expected
    rw [List.length_cons]
    omega

variable (xorb) in
theorem takeHits_cut (hb : e.toNat + rest.length < 2 ^ 32) :
    ∃ taken, rest = taken ++ (takeHits xorb e rest).2.2 ∧
      taken.map Prod.fst = (takeHits xorb e rest).1 ∧
      HitCut xorb e (takeHits xorb e rest).2.1 taken (takeHits xorb e rest).2.2 := by
  induction rest generalizing e with
  | nil => exact ⟨[], rfl, rfl, nofun, rfl, nofun⟩
  | cons p rest ih =>
    obtain ⟨c, loc⟩ := p
    cases loc with
    | none => exact ⟨[], rfl, rfl, nofun, rfl, nofun⟩
    | some loc =>
      obtain ⟨x2, i2⟩ := loc
      simp only [takeHits]
      split
      · rename_i hc
        obtain ⟨rfl, rfl⟩ := hc
        rw [List.length_cons] at hb
        have he : (i2 + 1).toNat = i2.toNat + 1 := succ_toNat (by omega)
        obtain ⟨taken, hrest, hrun, hcut⟩ := ih (e := i2 + 1) (by omega)
        refine ⟨(c, some (x2, i2)) :: taken, ?_, ?_, hcut.cons he c⟩
        · rw [List.cons_append, ← hrest]
        · rw [List.map_cons, hrun]
      · rename_i hc
        refine ⟨[], rfl, rfl, nofun, rfl, ?_⟩
        intro d idx hd hidx
        rw [List.head?_cons, Option.some.injEq, Prod.mk.injEq, Option.some.injEq,
          Prod.mk.injEq] at hd
        exact hc ⟨hd.2.1, hd.2.2.trans hidx⟩

end

section
variable {core : XetCore Hash} {locs done taken rest : List (Looked Hash)}

theorem at_taken (h : locs = done ++ (taken ++ rest)) {k : ℕ} (hk : k < taken.length) :
    locs[done.length + k]? = taken[k]? := by
  rw [h, List.getElem?_append_right (Nat.le_add_right _ _), Nat.add_sub_cancel_left,
    List.getElem?_append_left hk]

theorem at_rest (h : locs = done ++ (taken ++ rest)) :
    locs[done.length + taken.length]? = rest.head? := by
  rw [h, List.getElem?_append_right (Nat.le_add_right _ _), Nat.add_sub_cancel_left,
    List.getElem?_append_right (Nat.le_refl _), Nat.sub_self, List.head?_eq_getElem?]

theorem chunksAt_taken (h : locs = done ++ (taken ++ rest)) :
    chunksAt locs done.length (done.length + taken.length) = taken.map Prod.fst := by
  rw [chunksAt, h, Pieces.slice_middle]

theorem emitted_hits (h : locs = done ++ (taken ++ rest)) {xorb : String} {e next : UInt32}
    (hcut : HitCut xorb e next taken rest) : Emitted core locs
      (done.length, done.length + taken.length)
      ⟨xorb, e, next, unpackedLength (taken.map Prod.fst)⟩ := by
  refine ⟨?_, by rw [chunksAt_taken h], .inl ⟨?_, ?_⟩⟩
  · simp only [Nat.add_sub_cancel_left]
    exact hcut.expected
  · intro k hi hj
    obtain ⟨d, rfl⟩ := Nat.exists_eq_add_of_le hi
    have hd : d < taken.length := by omega
    obtain ⟨idx, hp, hidx⟩ := hcut.hits d _ (List.getElem?_eq_getElem hd)
    refine ⟨taken[d].1, idx, ?_, ?_⟩
    · rw [at_taken h hd, List.getElem?_eq_getElem hd, ← hp]
    · rw [Nat.add_sub_cancel_left]
      exact hidx
  · intro c idx hat hidx
    simp only at hat hidx
    rw [at_rest h] at hat
    apply hcut.stops c idx hat
    apply UInt32.toNat_inj.mp
    rw [hidx, hcut.expected, Nat.add_sub_cancel_left]

/-- A group of misses that fits a xorb, or is one chunk. -/
structure MissCut (taken : List (Looked Hash)) : Prop where
  nonempty : taken ≠ []
  misses : ∀ p ∈ taken, p.2 = none
  few : taken.length ≤ maxXorbChunks
  small : unpackedLength (taken.map Prod.fst) ≤ maxXorbUncompressed ∨ taken.length = 1

theorem emitted_misses (h : locs = done ++ (taken ++ rest)) (hcut : MissCut taken)
    {serialized : SerializedXorbObject Hash}
    (hser : core.fromXorb (taken.map Prod.fst) = .ok serialized) : Emitted core locs
      (done.length, done.length + taken.length)
      ⟨core.hex serialized.hash, 0, UInt32.ofNat (taken.map Prod.fst).length,
        unpackedLength (taken.map Prod.fst)⟩ := by
  have hfew := hcut.few
  refine ⟨?_, by rw [chunksAt_taken h], .inr ⟨?_, ⟨serialized, ?_, rfl⟩, rfl, ?_, ?_⟩⟩
  · have hlt : taken.length < 2 ^ 32 := Nat.lt_of_le_of_lt hfew (by decide)
    simp only [List.length_map, Nat.add_sub_cancel_left, UInt32.toNat_zero, Nat.zero_add]
    exact UInt32.toNat_ofNat_of_lt' hlt
  · intro k hi hj
    obtain ⟨d, rfl⟩ := Nat.exists_eq_add_of_le hi
    have hd : d < taken.length := by omega
    have hnone := hcut.misses _ (List.getElem_mem hd)
    refine ⟨taken[d].1, ?_⟩
    rw [at_taken h hd, List.getElem?_eq_getElem hd, ← hnone]
  · rw [chunksAt_taken h]
    exact hser
  · rw [Nat.add_sub_cancel_left]
    exact hfew
  · rw [chunksAt_taken h, Nat.add_sub_cancel_left]
    exact hcut.small

end

/-- A group of chunks with the xorb that it was packed into. -/
abbrev Upload (Hash : Type) := List (Chunk Hash) × SerializedXorbObject Hash

section
variable (core : XetCore Hash) (job : Job)

/-- The loop goes on by itself, and with the response to an upload that succeeds. -/
def walkOn : Stage Hash → Bool → Option (Stage Hash)
  | .upload terms group serialized rest, wasInserted =>
    some (resume core job (.upload terms group serialized rest) (.putXorb (.ok wasInserted)))
  | stage, _ => compute core stage

/-- What a step has uploaded. -/
def uploads : Stage Hash → Bool → Stage Hash → Option (Upload Hash)
  | .upload _ group serialized _, _, _ => some (group, serialized)
  | _, _, _ => none

/-- The uploads are those of the missed chunks, each once and in order. -/
structure Uploaded (locs : List (Looked Hash)) (log : List (Upload Hash)) : Prop where
  chunks : log.flatMap Prod.fst = missed locs
  packed : ∀ u ∈ log, core.fromXorb u.1 = .ok u.2

/-- Some group of misses cannot be packed into a xorb. -/
def Unpackable (locs : List (Looked Hash)) : Prop :=
  ∃ taken e, MissCut taken ∧ taken <:+: locs ∧ core.fromXorb (taken.map Prod.fst) = .error e

/-- Where the loop stands, with the uploads so far. -/
def InLoop (locs : List (Looked Hash)) : Stage Hash → List (Upload Hash) → Prop
  | .query locs' todo, log => locs' = locs ∧ todo = [] ∧ log = []
  | .walk terms rest, log => ∃ done, locs = done ++ rest ∧
    Walked core locs done.length terms ∧ Uploaded core done log
  | .upload terms group serialized rest, log => ∃ done taken, locs = done ++ (taken ++ rest) ∧
    Walked core locs done.length terms ∧ Uploaded core done log ∧ MissCut taken ∧
    taken.map Prod.fst = group ∧ core.fromXorb group = .ok serialized
  | .register terms, log => Walked core locs locs.length terms ∧ Uploaded core locs log
  | .finished result, _ => result = .error "serialize xorb" ∧ Unpackable core locs

/-- The rounds left, two for each chunk at most. -/
def loopLeft : Stage Hash → ℕ
  | .query locs _ => 2 * locs.length + 2
  | .walk _ rest => 2 * rest.length + 1
  | .upload _ _ _ rest => 2 * rest.length + 2
  | _ => 0

/-- The loop has ended. -/
def Ended : Stage Hash → Prop
  | .register _ | .finished _ => True
  | _ => False

end

section
variable {core : XetCore Hash} {job : Job} {locs : List (Looked Hash)} {log : List (Upload Hash)}

theorem missed_append (a b : List (Looked Hash)) : missed (a ++ b) = missed a ++ missed b := by
  simp [missed]

theorem missed_hits {taken : List (Looked Hash)} (h : ∀ p ∈ taken, p.2 ≠ none) :
    missed taken = [] := by
  rw [missed, List.map_eq_nil_iff, List.filter_eq_nil_iff]
  intro p hp hn
  exact h p hp (Option.isNone_iff_eq_none.mp hn)

theorem missed_misses {taken : List (Looked Hash)} (h : ∀ p ∈ taken, p.2 = none) :
    missed taken = taken.map Prod.fst := by
  rw [missed, List.filter_eq_self.mpr]
  intro p hp
  simp [h p hp]

/-- One iteration: a run of hits is emitted, a run of misses is packed. -/
theorem walkRun_inLoop (hidx : ∀ p ∈ locs, ∀ x i, p.2 = some (x, i) →
      i.toNat + locs.length < 2 ^ 32) {terms : List RegisterTerm} {rest : List (Looked Hash)}
    (h : InLoop core locs (.walk terms rest) log) :
    InLoop core locs (walkRun core terms rest) log ∧
      loopLeft (walkRun core terms rest) < loopLeft (.walk terms rest) := by
  obtain ⟨done, hlocs, hwalked, hup⟩ := h
  cases rest with
  | nil =>
    rw [List.append_nil] at hlocs
    subst hlocs
    exact ⟨⟨hwalked, hup⟩, Nat.one_pos⟩
  | cons p rest =>
    obtain ⟨c, loc⟩ := p
    cases loc with
    | none =>
      obtain ⟨taken, hrest, hne, hgroup, hnone, hfew, hsmall⟩ := novelGroup_cut c rest
      have hlen := congrArg List.length hrest
      have hpos := List.length_pos_iff.mpr hne
      rw [List.length_append, List.length_cons] at hlen
      simp only [walkRun, packNovel]
      rw [hrest] at hlocs
      split
      · rename_i e he
        rw [← hgroup] at he
        refine ⟨⟨rfl, taken, e, ⟨hne, hnone, hfew, hsmall⟩, ?_, he⟩, Nat.succ_pos _⟩
        rw [hlocs, ← List.append_assoc]
        exact List.infix_append _ _ _
      · rename_i serialized hser
        refine ⟨⟨done, taken, hlocs, hwalked, hup, ⟨hne, hnone, hfew, hsmall⟩, hgroup, hser⟩, ?_⟩
        simp only [loopLeft, List.length_cons]
        omega
    | some loc =>
      obtain ⟨xorb, idx⟩ := loc
      have hbound := hidx (c, some (xorb, idx)) (by simp [hlocs]) xorb idx rfl
      have hsize : rest.length + 1 ≤ locs.length := by
        rw [hlocs, List.length_append, List.length_cons]
        omega
      have hsucc : (idx + 1).toNat = idx.toNat + 1 := succ_toNat (by omega)
      have hfit : (idx + 1).toNat + rest.length < 2 ^ 32 := by omega
      obtain ⟨taken, hrest, hrun, hcut⟩ := takeHits_cut xorb hfit
      have hcut' := hcut.cons hsucc c
      have hlocs' : locs = done ++ (((c, some (xorb, idx)) :: taken) ++
          (takeHits xorb (idx + 1) rest).2.2) := by
        rw [List.cons_append, ← hrest]
        exact hlocs
      have hlen := congrArg List.length hrest
      rw [List.length_append] at hlen
      simp only [walkRun]
      refine ⟨⟨done ++ (c, some (xorb, idx)) :: taken, ?_, ?_, ?_, hup.packed⟩, ?_⟩
      · rw [List.append_assoc]
        exact hlocs'
      · rw [← hrun, ← List.map_cons (f := Prod.fst) (a := (c, some (xorb, idx))),
          List.length_append]
        exact hwalked.snoc (by simp) (emitted_hits hlocs' hcut')
      · have hnone : missed ((c, some (xorb, idx)) :: taken) = [] := by
          apply missed_hits
          intro q hq hn
          obtain ⟨k, hk, rfl⟩ := List.getElem_of_mem hq
          obtain ⟨i, hi, _⟩ := hcut'.hits k _ (List.getElem?_eq_getElem hk)
          rw [hn] at hi
          cases hi
        rw [missed_append, hnone, List.append_nil]
        exact hup.chunks
      · change 2 * (takeHits xorb (idx + 1) rest).2.2.length + 1 < 2 * (rest.length + 1) + 1
        omega

variable (job) in
/-- The loop takes one step, the same whatever an upload's response says, and comes
closer to its end. -/
theorem walkOn_step (hidx : ∀ p ∈ locs, ∀ x i, p.2 = some (x, i) →
      i.toNat + locs.length < 2 ^ 32) {stage : Stage Hash} (h : InLoop core locs stage log)
    (hne : ¬ Ended stage) : ∃ stage', (∀ b, walkOn core job stage b = some stage' ∧
      InLoop core locs stage' (log ++ (uploads stage b stage').toList)) ∧
        loopLeft stage' < loopLeft stage := by
  cases stage with
  | query locs' todo =>
    obtain ⟨rfl, rfl, rfl⟩ := h
    refine ⟨.walk [] locs', fun b => ⟨rfl, [], rfl, walked_nil core locs', rfl, nofun⟩, ?_⟩
    simp [loopLeft]
  | walk terms rest =>
    obtain ⟨hin, hlt⟩ := walkRun_inLoop hidx h
    refine ⟨walkRun core terms rest, fun b => ⟨rfl, ?_⟩, hlt⟩
    rw [uploads, Option.toList_none, List.append_nil]
    · exact hin
    · nofun
  | upload terms group serialized rest =>
    obtain ⟨done, taken, hlocs, hwalked, hup, hcut, rfl, hser⟩ := h
    refine ⟨_, fun b => ⟨rfl, ?_⟩, ?_⟩
    · refine ⟨done ++ taken, by rw [List.append_assoc]; exact hlocs, ?_, ?_, ?_⟩
      · rw [List.length_append]
        have hpos := List.length_pos_iff.mpr hcut.nonempty
        exact hwalked.snoc (by omega) (emitted_misses hlocs hcut hser)
      · rw [List.flatMap_append, hup.chunks, missed_append, missed_misses hcut.misses]
        simp [uploads]
      · intro u hu
        rcases List.mem_append.mp hu with hu | hu
        · exact hup.packed u hu
        · obtain rfl := List.mem_singleton.mp hu
          exact hser
    · exact Nat.lt_succ_self _
  | register terms => exact absurd trivial hne
  | finished result => exact absurd trivial hne

theorem run_inLoop (hidx : ∀ p ∈ locs, ∀ x i, p.2 = some (x, i) →
      i.toNat + locs.length < 2 ^ 32) {stage stage' : Stage Hash} {bs : List Bool}
    (h : InLoop core locs stage []) (run : Run.exec (walkOn core job) stage bs = some stage') :
    InLoop core locs stage' (Run.events (walkOn core job) uploads stage bs) := by
  have hstep : ∀ s log b t, InLoop core locs s log → walkOn core job s b = some t →
      InLoop core locs t (log ++ (uploads s b t).toList) := by
    intro s log b t hs ht
    by_cases hd : Ended s
    · cases s with
      | register => cases ht
      | finished => cases ht
      | _ => exact hd.elim
    · obtain ⟨t', hb, _⟩ := walkOn_step job hidx hs hd
      obtain ⟨ht', hin⟩ := hb b
      obtain rfl := Option.some.inj (ht.symm.trans ht')
      exact hin
  exact Run.exec_events hstep h run

theorem queries_looked {chunks : List (Chunk Hash)} {hits : List (Except Failure DedupHit)}
    {lookups : List (Option Agent.ChunkLoc)} (hlen : lookups.length = chunks.length)
    (hq : List.Forall₂ (fun hit loc => queryChunk hit = .ok loc) hits lookups)
    (locs : List (Looked Hash)) :
    hits.foldl (fun stage hit => resume core job stage (.globalDedup hit)) (.query locs chunks) =
      .query (locs ++ chunks.zip lookups) [] := by
  induction hq generalizing chunks locs with
  | nil =>
    rw [List.length_eq_zero_iff.mp hlen.symm]
    simp
  | @cons hit loc hits lookups hl _ ih =>
    cases chunks with
    | nil => cases hlen
    | cons c chunks =>
      have hresume : resume core job (.query locs (c :: chunks)) (.globalDedup hit) =
          .query (locs ++ [(c, loc)]) chunks := by simp only [resume, hl]
      rw [List.foldl_cons, hresume, ih (by simpa using hlen), List.append_assoc,
        List.zip_cons_cons]
      rfl

end

/-- Over any lookups, the loop of `ingestBytes` ends once its uploads succeed. Its terms
are those of consecutive intervals of the chunks, each a run of hits or of misses, and
what it has uploaded is the missed chunks. -/
theorem walk_partitions (core : XetCore Hash) (job : Job) (lookups : List (Option Agent.ChunkLoc))
    (hlen : lookups.length = (core.nextBlock job.bytes).length)
    (hidx : ∀ x i, some (x, i) ∈ lookups → i.toNat + lookups.length < 2 ^ 32) :
    (∀ hits, List.Forall₂ (fun hit loc => queryChunk hit = .ok loc) hits lookups →
      hits.foldl (fun stage hit => resume core job stage (.globalDedup hit))
        (.query [] (core.nextBlock job.bytes)) =
          .query ((core.nextBlock job.bytes).zip lookups) []) ∧
    ∃ k stage, (∀ bs : List Bool, bs.length = k → Run.exec (walkOn core job)
        (.query ((core.nextBlock job.bytes).zip lookups) []) bs = some stage) ∧
      ((stage = .finished (.error "serialize xorb") ∧
          Unpackable core ((core.nextBlock job.bytes).zip lookups)) ∨
        ∃ terms body intervals, stage = .register terms ∧
          nextRequest core job stage = some (.registerFile body) ∧ body.terms = terms ∧
          Pieces.Tiles 0 intervals (core.nextBlock job.bytes).length ∧
          List.Forall₂ (Emitted core ((core.nextBlock job.bytes).zip lookups)) intervals terms ∧
          (terms.map RegisterTerm.unpackedLength).sum = body.totalSize ∧
          ∀ bs : List Bool, bs.length = k →
            Uploaded core ((core.nextBlock job.bytes).zip lookups) (Run.events (walkOn core job)
              uploads (.query ((core.nextBlock job.bytes).zip lookups) []) bs)) := by
  refine ⟨fun hits hq => queries_looked hlen hq [], ?_⟩
  generalize hchunks : core.nextBlock job.bytes = chunks at *
  have hn : (chunks.zip lookups).length = chunks.length := by
    rw [List.length_zip, hlen, Nat.min_self]
  have hfst : (chunks.zip lookups).map Prod.fst = chunks :=
    List.map_fst_zip (Nat.le_of_eq hlen.symm)
  have hbound : ∀ p ∈ chunks.zip lookups, ∀ x i, p.2 = some (x, i) →
      i.toNat + (chunks.zip lookups).length < 2 ^ 32 := by
    intro p hp x i hi
    rw [hn, ← hlen]
    apply hidx x i
    rw [← hi]
    exact (List.of_mem_zip hp).2
  have hstart : InLoop core (chunks.zip lookups) (.query (chunks.zip lookups) []) [] :=
    ⟨rfl, rfl, rfl⟩
  have hstep : ∀ s, (∃ log, InLoop core (chunks.zip lookups) s log) → ¬ Ended s →
      ∃ t, (∀ b, walkOn core job s b = some t) ∧
        (∃ log, InLoop core (chunks.zip lookups) t log) ∧ loopLeft t < loopLeft s := by
    intro s hs hd
    obtain ⟨log, hs⟩ := hs
    obtain ⟨t, hb, hlt⟩ := walkOn_step job hbound hs hd
    exact ⟨t, fun b => (hb b).1, ⟨_, (hb true).2⟩, hlt⟩
  obtain ⟨k, stage, hexec, ⟨log, hin⟩, hdone⟩ := Run.exec_ends loopLeft hstep ⟨[], hstart⟩
  refine ⟨k, stage, hexec, ?_⟩
  cases stage with
  | finished result =>
    obtain ⟨rfl, hu⟩ := hin
    exact .inl ⟨rfl, hu⟩
  | register terms =>
    obtain ⟨⟨intervals, htiles, hall⟩, _⟩ := hin
    refine .inr ⟨terms, _, intervals, rfl, rfl, rfl, hn ▸ htiles, hall, ?_, ?_⟩
    · rw [(tiles_sum htiles hall).2, hchunks, chunksAt, Pieces.slice_zero, hfst]
    · intro bs hbs
      exact (run_inLoop hbound hstart (hexec bs hbs)).2
  | query => cases hdone
  | walk => cases hdone
  | upload => cases hdone

/-- A call for five chunks, with two hits in a row between misses. -/
def fiveChunks : Job := ⟨"v", "/f", [1, 2, 3, 4, 5]⟩

def fiveLookups : List (Option Agent.ChunkLoc) :=
  [none, some ("x", 7), some ("x", 8), none, none]

theorem walk_partitions_five : ∃ k terms intervals,
    (∀ bs : List Bool, bs.length = k → Run.exec (walkOn Plain.plain fiveChunks)
      (.query ((Plain.nextBlock [1, 2, 3, 4, 5]).zip fiveLookups) []) bs =
        some (.register terms)) ∧
    Pieces.Tiles 0 intervals 5 ∧ List.Forall₂
      (Emitted Plain.plain ((Plain.nextBlock [1, 2, 3, 4, 5]).zip fiveLookups)) intervals terms := by
  have hidx : ∀ x i, some (x, i) ∈ fiveLookups → i.toNat + fiveLookups.length < 2 ^ 32 := by
    intro x i hi
    simp only [fiveLookups, List.mem_cons, Option.some.injEq, Prod.mk.injEq, reduceCtorEq,
      false_or, or_false, List.not_mem_nil] at hi
    rcases hi with ⟨_, rfl⟩ | ⟨_, rfl⟩ <;> decide
  have hpacks : ∀ taken ∈ ((Plain.nextBlock [1, 2, 3, 4, 5]).zip fiveLookups).sublists,
      (Plain.fromXorb (taken.map Prod.fst)).isOk = true := by decide
  obtain ⟨_, k, stage, hexec, ⟨_, taken, e, _, hinfix, he⟩ | ⟨terms, _, intervals, rfl, _, _,
    htiles, hall, _⟩⟩ := walk_partitions Plain.plain fiveChunks fiveLookups (by decide) hidx
  · have hok := hpacks taken (List.mem_sublists.mpr hinfix.sublist)
    change Plain.fromXorb _ = _ at he
    rw [he] at hok
    cases hok
  · exact ⟨k, terms, intervals, hexec, htiles, hall⟩

end Dejaveph.Proofs.TermWalk
