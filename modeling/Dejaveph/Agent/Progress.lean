import Dejaveph.Agent.Ingest

namespace Dejaveph.Agent
open Lib Server

variable {Hash β : Type}

def Replies : Request → Answer → Prop
  | .putXorb .., .putXorb _ | .registerFile _, .registerFile _ => True
  | .globalDedup .., .globalDedup _ => True
  | _, _ => False

/-- How far a call is from its end. -/
def stageLeft : Stage Hash → ℕ
  | .query locs todo => todo.length + 2 * (locs.length + todo.length) + 4
  | .upload _ _ _ rest => 2 * rest.length + 4
  | .walk _ rest => 2 * rest.length + 3
  | .register _ => 2
  | .finished _ => 1

/-- How many steps the handler of a call's request takes at most. -/
def handlerLeft : Handler Hash → ℕ
  | .putStore _ _ call =>
    match call.stage with
    | .tryExists => 9
    | .createDir => 8
    | .write => 7
    | .rename => 6
    | .recheck _ => 5
    | .removeTmp => 4
  | .answered _ => 0
  | .reply _ => 1
  | _ => 2

def left (i : ℕ) (w : World Hash β) : ℕ :=
  match w.clients i with
  | none => 0
  | some d => 11 * stageLeft d.stage +
    match d.waiting with
    | none => 10
    | some n => ((w.server.tasks n).map (fun t => handlerLeft t.handler)).getD 0

theorem takeHits_rest (xorb : String) (e : UInt32) (rest : List (Chunk Hash × Option ChunkLoc)) :
    (takeHits xorb e rest).2.2 <:+ rest := by
  induction rest generalizing e with
  | nil => exact List.suffix_refl _
  | cons p rest ih =>
    obtain ⟨c, _ | ⟨x2, i2⟩⟩ := p
    · exact List.suffix_refl _
    · simp only [takeHits]
      split
      · exact (ih (e + 1)).trans (List.suffix_cons _ _)
      · exact List.suffix_refl _

theorem novelGroup_rest (c : Chunk Hash) (rest : List (Chunk Hash × Option ChunkLoc)) :
    (novelGroup c rest).2 <:+ rest := by
  obtain ⟨taken, hcut, hne, _⟩ := novelGroup_cut c rest
  cases taken with
  | nil => exact absurd rfl hne
  | cons q taken => exact ⟨taken, (List.cons.inj hcut).2.symm⟩

section
variable {core : XetCore Hash} {job : Job} {stage stage' : Stage Hash} {r : Request}

theorem compute_left (hc : compute core stage = some stage') :
    stageLeft stage' < stageLeft stage := by
  cases stage with
  | query locs todo =>
    cases todo with
    | nil =>
      cases hc
      simp [stageLeft]
    | cons c todo => cases hc
  | walk terms rest =>
    cases hc
    obtain _ | ⟨⟨c, _ | ⟨xorb, idx⟩⟩, rest⟩ := rest
    · simp [walkRun, stageLeft]
    · have hlen := (novelGroup_rest c rest).length_le
      simp only [walkRun, packNovel]
      split
      · simp only [stageLeft, List.length_cons]
        omega
      · change 2 * (novelGroup c rest).2.length + 4 < 2 * (rest.length + 1) + 3
        omega
    · have hlen := (takeHits_rest xorb (idx + 1) rest).length_le
      change 2 * (takeHits xorb (idx + 1) rest).2.2.length + 3 < 2 * (rest.length + 1) + 3
      omega
  | upload | register | finished => cases hc

theorem resume_left (hr : nextRequest core job stage = some r) {a : Answer} (ha : Replies r a) :
    stageLeft (resume core job stage a) < stageLeft stage := by
  cases stage with
  | query locs todo =>
    cases todo with
    | nil => cases hr
    | cons c todo =>
      cases hr
      cases a with
      | globalDedup hit =>
        simp only [resume]
        split <;> simp only [stageLeft, List.length_append, List.length_cons, List.length_nil] <;>
          omega
      | _ => exact absurd ha id
  | upload terms group ser rest =>
    cases hr
    cases a with
    | putXorb result =>
      simp only [resume]
      split <;> simp only [stageLeft] <;> omega
    | _ => exact absurd ha id
  | register terms =>
    cases hr
    cases a with
    | registerFile result =>
      simp only [resume]
      split <;> exact Nat.one_lt_two
    | _ => exact absurd ha id
  | walk | finished => cases hr

end

section
variable [DecidableEq Hash] {core : XetCore Hash} {store : BlobStore Hash β} {i : ℕ}
  {w : World Hash β} {d : Client Hash}

end

end Dejaveph.Agent
