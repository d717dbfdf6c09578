import Dejaveph.Server.Disk

namespace Dejaveph.Server.Points
open Lib Server
variable {Hash : Type}

/-- What a call sees of the store where it takes effect. -/
inductive Seen where
  | put (new : Bool)
  | head (len : Option ℕ)
  | body (bytes : Option Bytes)
  | delete
deriving DecidableEq

/-- A call has taken effect. -/
structure Point (Hash : Type) where
  id : ℕ
  call : BlobCall Hash
  seen : Seen

/-- What a call returns that saw this where it took effect. -/
def Returns : BlobCall Hash → Seen → BlobResult → Prop
  | .put _ _, .put new, r => r = .put (.ok new)
  | .head _, .head len, r => r = .head (.ok len)
  | .getRange _ _ _, .body none, r => r = .range (some (.error notFound))
  | .getRange _ start stop, .body (some b), r => r = .range ((readRange b start stop).map .ok)
  | .delete _, .delete, r => r = .delete (.ok ())
  | _, _, _ => False

def Failed : BlobResult → Prop
  | .put (.error _) | .head (.error _) | .range (some (.error _)) | .delete (.error _) => True
  | _ => False

/-- A result is that of the point where the call took effect. A call that
failed has no such point, except one that had opened its file. -/
def Answered (log : List (Point Hash)) (i : ℕ) (call : BlobCall Hash) (r : BlobResult) : Prop :=
  (∃ seen, ⟨i, call, seen⟩ ∈ log ∧ Returns call seen r) ∨
    (Failed r ∧ ∀ p ∈ log, p.id = i → ∃ b, p.seen = .body b)

theorem answered_failed {log : List (Point Hash)} {i : ℕ} {call : BlobCall Hash} {r : BlobResult}
    (h : ∀ p ∈ log, p.id ≠ i)
    (hr : Failed r) : Answered log i call r :=
  .inr ⟨hr, fun p hp he => absurd he (h p hp)⟩

variable [DecidableEq Hash]

/-- The write-once map answers a call in one step. -/
def Agrees (m : Table Hash Bytes) : BlobCall Hash → Seen → Table Hash Bytes → Prop
  | .put key bytes, .put new, m' =>
    WriteOnce.putStep (.start key bytes) .ok m = (.done (.ok new), m')
  | .head key, .head len, m' => len = (m.lookup key).map List.length ∧ m' = m
  | .getRange key _ _, .body b, m' => b = m.lookup key ∧ m' = m
  | .delete key, .delete, m' => WriteOnce.delete key .ok m = (.ok (), m')
  | _, _, _ => False

/-- What the step that comes next for a task sees, if it is where the call takes effect. -/
def sees (os : Os) (d : Disk Hash) : BlobTask Hash → Option Seen
  | .put key _ pc =>
    match pc, os with
    | .tryExists, .ok _ | .recheck _, .ok _ => if key ∈ d.files then some (.put false) else none
    | .rename, .ok _ => if key ∈ d.tmp then some (.put true) else none
    | _, _ => none
  | .head key =>
    match os with
    | .ok _ => some (.head ((d.body key).map List.length))
    | .fail _ => none
  | .getRange key _ _ pc =>
    match pc, os with
    | .open_, .ok _ => some (.body (d.body key))
    | _, _ => none
  | .delete _ =>
    match os with
    | .ok _ => some .delete
    | .fail _ => none
  | .returned _ _ => none

def point (s : BlobState Hash) (l : BlobLabel Hash) (_ : BlobState Hash) : Option (Point Hash) :=
  match l with
  | .call _ _ => none
  | .step i os => (s.tasks i).bind fun task =>
      (sees os s.disk task).map fun seen => ⟨i, task.call, seen⟩

def Holds (d : Disk Hash) (m : Table Hash Bytes) : Prop := ∀ key, m.lookup key = d.body key

theorem Holds.mem {d : Disk Hash} {m : Table Hash Bytes} (h : Holds d m) {key : Hash} :
    key ∈ m ↔ key ∈ d.files := by
  rw [← AList.lookup_isSome, ← AList.lookup_isSome, h key, Disk.body, Option.isSome_map]

def objects (d : Disk Hash) : Table Hash Bytes := d.files.mapValues d.contents

theorem holds_objects (d : Disk Hash) : Holds d (objects d) := fun key =>
  Table.lookup_mapValues d.files d.contents key

def points (s : BlobState Hash) (labels : List (BlobLabel Hash)) : List (Point Hash) :=
  Run.events blobStep point s labels

theorem agrees_found {d : Disk Hash} {m : Table Hash Bytes} {key : Hash} (bytes : Bytes)
    (hm : Holds d m) (hk : key ∈ d.files) : Agrees m (.put key bytes) (.put false) m := by
  have hmem : key ∈ m := hm.mem.mpr hk
  simp [Agrees, WriteOnce.putStep, PutCall.start, hmem]

theorem agrees_new {d : Disk Hash} {m : Table Hash Bytes} {key : Hash} (bytes : Bytes)
    (hm : Holds d m) (hk : key ∉ d.files) :
    Agrees m (.put key bytes) (.put true) (m.insert key bytes) := by
  have hmem : key ∉ m := fun h => hk (hm.mem.mp h)
  simp [Agrees, WriteOnce.putStep, PutCall.start, hmem]

/-- The points are a run of the write-once map. -/
def Serial (m : Table Hash Bytes) (log : List (Point Hash)) (m' : Table Hash Bytes) : Prop :=
  Run.Runs Agrees m (log.map Point.call) (log.map Point.seen) m'

section
variable {m m' : Table Hash Bytes} {log : List (Point Hash)}

theorem Serial.cons {p : Point Hash} (h : Serial m (p :: log) m') :
    ∃ m₁, Agrees m p.call p.seen m₁ ∧ Serial m₁ log m' := by
  cases h with
  | cons head tail => exact ⟨_, head, tail⟩

theorem Serial.append {a b : List (Point Hash)} (h : Serial m (a ++ b) m') :
    ∃ m₁, Serial m a m₁ ∧ Serial m₁ b m' := by
  unfold Serial at h
  rw [List.map_append, List.map_append] at h
  obtain ⟨m₁, ha, hb⟩ := h.split
  refine ⟨m₁, ?_, ?_⟩
  · simpa [Serial, List.take_left'] using ha
  · simpa [Serial, List.drop_left'] using hb

theorem agrees_put {key : Hash} {bytes : Bytes} {new : Bool}
    (h : Agrees m (.put key bytes) (.put new) m') :
    (new = false ∧ m' = m) ∨ (new = true ∧ key ∉ m ∧ m' = m.insert key bytes) := by
  change (if key ∈ m then _ else _) = _ at h
  by_cases hk : key ∈ m
  · rw [if_pos hk] at h
    cases h
    exact .inl ⟨rfl, rfl⟩
  · rw [if_neg hk] at h
    cases h
    exact .inr ⟨rfl, hk, rfl⟩

theorem Agrees.lookup {call : BlobCall Hash} {seen : Seen} (h : Agrees m call seen m') (key : Hash) :
    m'.lookup key = m.lookup key ∨
      (∃ bytes, call = .put key bytes ∧ seen = .put true ∧ m.lookup key = none ∧
        m'.lookup key = some bytes) ∨
      (call = .delete key ∧ m'.lookup key = none) := by
  cases call with
  | put k bytes =>
    cases seen with
    | put new =>
      rcases agrees_put h with ⟨_, rfl⟩ | ⟨rfl, hk, rfl⟩
      · exact .inl rfl
      · rw [Table.lookup_insert_if]
        by_cases he : key = k
        · subst he
          exact .inr (.inl ⟨bytes, rfl, rfl, AList.lookup_eq_none.mpr hk, if_pos rfl⟩)
        · exact .inl (if_neg he)
    | _ => exact h.elim
  | head k =>
    cases seen with
    | head len => exact .inl (by rw [h.2])
    | _ => exact h.elim
  | getRange k start stop =>
    cases seen with
    | body b => exact .inl (by rw [h.2])
    | _ => exact h.elim
  | delete k =>
    cases seen with
    | delete =>
      simp only [Agrees, WriteOnce.delete] at h
      cases h
      rw [Table.lookup_erase_if]
      by_cases he : key = k
      · subst he
        exact .inr (.inr ⟨rfl, if_pos rfl⟩)
      · exact .inl (if_neg he)
    | _ => exact h.elim

theorem Serial.keeps {key : Hash} {b : Bytes} (h : Serial m log m') (hb : m.lookup key = some b) :
    m'.lookup key = some b ∨ ∃ p ∈ log, p.call = .delete key := by
  induction log generalizing m with
  | nil =>
    cases h
    exact .inl hb
  | cons p log ih =>
    obtain ⟨m₁, hp, h⟩ := h.cons
    rcases hp.lookup key with he | ⟨_, _, _, hnone, _⟩ | ⟨hdelete, _⟩
    · rcases ih h (he.trans hb) with hk | ⟨q, hq, hd⟩
      · exact .inl hk
      · exact .inr ⟨q, by simp [hq], hd⟩
    · rw [hb] at hnone
      cases hnone
    · exact .inr ⟨p, by simp, hdelete⟩

theorem Serial.origin {key : Hash} {b : Bytes} (h : Serial m log m') (hb : m'.lookup key = some b) :
    m.lookup key = some b ∨ ∃ p ∈ log, p.call = .put key b ∧ p.seen = .put true := by
  induction log generalizing m with
  | nil =>
    cases h
    exact .inl hb
  | cons p log ih =>
    obtain ⟨m₁, hp, h⟩ := h.cons
    rcases ih h with hk | ⟨q, hq, hput⟩
    · rcases hp.lookup key with he | ⟨bytes, hcall, hseen, _, hnew⟩ | ⟨_, hnone⟩
      · exact .inl (he ▸ hk)
      · rw [hk] at hnew
        obtain rfl := Option.some.inj hnew
        exact .inr ⟨p, by simp, hcall, hseen⟩
      · rw [hk] at hnone
        cases hnone
    · exact .inr ⟨q, by simp [hq], hput⟩

/-- Between two insertions of a key lies a deletion of it. -/
theorem Serial.inserts_once {key : Hash} {b c : Bytes} {l₁ l₂ l₃ : List (Point Hash)}
    {p q : Point Hash} (h : Serial m (l₁ ++ p :: l₂ ++ q :: l₃) m') (hp : p.call = .put key b)
    (hp' : p.seen = .put true) (hq : q.call = .put key c) (hq' : q.seen = .put true) :
    ∃ e ∈ l₂, e.call = .delete key := by
  obtain ⟨m₃, h, hr⟩ := h.append
  obtain ⟨m₁, _, h⟩ := h.append
  obtain ⟨m₂, hpa, h⟩ := h.cons
  obtain ⟨m₄, hqa, _⟩ := hr.cons
  rw [hp, hp'] at hpa
  rw [hq, hq'] at hqa
  obtain ⟨_, _, rfl⟩ := (agrees_put hpa).resolve_left (by simp)
  obtain ⟨_, hfree, _⟩ := (agrees_put hqa).resolve_left (by simp)
  rcases h.keeps (AList.lookup_insert m₁) with hk | hd
  · exact absurd (Table.mem_of_lookup hk) hfree
  · exact hd

theorem Serial.shown {p : Point Hash} (h : Serial m log m') (hp : p ∈ log) :
    ∃ l₁ l₂ m₁ m₂, log = l₁ ++ p :: l₂ ∧ Serial m l₁ m₁ ∧ Agrees m₁ p.call p.seen m₂ := by
  obtain ⟨l₁, l₂, rfl⟩ := List.append_of_mem hp
  obtain ⟨m₁, hl, h⟩ := h.append
  obtain ⟨m₂, hp, _⟩ := h.cons
  exact ⟨l₁, l₂, m₁, m₂, rfl, hl, hp⟩

end

end Dejaveph.Server.Points
