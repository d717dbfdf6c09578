import Dejaveph.Server.Disk

namespace Dejaveph.Server.TempFiles
open Lib Server
variable {Hash : Type}

/-- A `put` of the key between its creation of the temporary file and its rename. -/
def Writing (key : Hash) : BlobTask Hash → Prop
  | .put k _ (.write _ _) | .put k _ .rename => k = key
  | _ => False

instance [DecidableEq Hash] (key : Hash) : DecidablePred (Writing key)
  | .put k _ (.write _ _) => inferInstanceAs (Decidable (k = key))
  | .put k _ .rename => inferInstanceAs (Decidable (k = key))
  | .put _ _ .tryExists | .put _ _ .createDir | .put _ _ .create | .put _ _ (.recheck _)
  | .put _ _ .removeTmp | .head _ | .getRange _ _ _ _ | .delete _ | .returned _ _ => .isFalse id

/-- The task has this inode open for writing. -/
def Owns (inode : ℕ) : BlobTask Hash → Prop
  | .put _ _ (.write i _) => i = inode
  | _ => False

/-- Two tasks that may spoil each other's temporary file. -/
def Contend (t u : BlobTask Hash) : Prop :=
  (∃ key, Writing key t ∧ Writing key u) ∨ ∃ inode, Owns inode t ∧ Owns inode u

theorem Owns.writing {inode : ℕ} {task : BlobTask Hash} (h : Owns inode task) :
    ∃ key, Writing key task := by
  cases task with
  | put key bytes pc =>
    cases pc with
    | write i n => exact ⟨key, rfl⟩
    | _ => exact absurd h (by simp [Owns])
  | _ => exact absurd h (by simp [Owns])

theorem returned_quiet (call : BlobCall Hash) (r : BlobResult) :
    ∀ key, ¬ Writing key (.returned call r) := fun _ h => h

theorem writing_owns {key : Hash} {bytes : Bytes} {inode n j : ℕ}
    (h : Owns j (.put key bytes (.writing bytes inode n) : BlobTask Hash)) : inode = j := by
  unfold PutPc.writing at h
  split at h
  · exact h
  · exact absurd h (by simp [Owns])

theorem writing_writing {key k : Hash} {bytes : Bytes} {inode n : ℕ}
    (h : Writing k (.put key bytes (.writing bytes inode n))) : key = k := by
  unfold PutPc.writing at h
  split at h
  · exact h
  · exact h

variable [DecidableEq Hash]

/-- Temporary files are used by one `put` at a time, and an object is put in
place only where there is none. -/
def Undisturbed (s : BlobState Hash) : BlobLabel Hash → Prop
  | .step i (.ok _) =>
    match s.tasks i with
    | some (.put key _ .create) => ∀ j task, s.tasks j = some task → ¬ Writing key task
    | some (.put key _ .rename) => key ∈ s.disk.tmp → key ∉ s.disk.files
    | _ => True
  | _ => True

/-- A temporary file is made, or truncated, while no `put` of its key is using it. -/
def CreatesAlone (s : BlobState Hash) : BlobLabel Hash → Prop
  | .step i (.ok _) => ∀ key bytes, s.tasks i = some (.put key bytes .create) →
    ∀ j task, s.tasks j = some task → ¬ Writing key task
  | _ => True

/-- An object is put in place where there is none. -/
def RenamesFresh (s : BlobState Hash) : BlobLabel Hash → Prop
  | .step i (.ok _) => ∀ key bytes, s.tasks i = some (.put key bytes .rename) →
    key ∈ s.disk.tmp → key ∉ s.disk.files
  | _ => True

/-- A temporary file is made, truncated or removed while no `put` of its key is using it. -/
def TakesTurns (s : BlobState Hash) : BlobLabel Hash → Prop
  | .step i (.ok _) => ∀ key bytes pc, s.tasks i = some (.put key bytes pc) →
    pc = .create ∨ pc = .removeTmp → ∀ j task, s.tasks j = some task → ¬ Writing key task
  | _ => True

omit [DecidableEq Hash] in
theorem TakesTurns.creates {s : BlobState Hash} {l : BlobLabel Hash} (h : TakesTurns s l) :
    CreatesAlone s l := by
  cases l with
  | call i c => trivial
  | step i os =>
    cases os with
    | fail e => trivial
    | ok n => exact fun key bytes hi => h key bytes .create hi (.inl rfl)

omit [DecidableEq Hash] in
theorem Undisturbed.creates {s : BlobState Hash} {l : BlobLabel Hash} (h : Undisturbed s l) :
    CreatesAlone s l := by
  cases l with
  | call i c => trivial
  | step i os =>
    cases os with
    | fail e => trivial
    | ok n =>
      intro key bytes hi
      simp only [Undisturbed, hi] at h
      exact h

omit [DecidableEq Hash] in
theorem Undisturbed.renames {s : BlobState Hash} {l : BlobLabel Hash} (h : Undisturbed s l) :
    RenamesFresh s l := by
  cases l with
  | call i c => trivial
  | step i os =>
    cases os with
    | fail e => trivial
    | ok n =>
      intro key bytes hi
      simp only [Undisturbed, hi] at h
      exact h

/-- An inode that nothing writes again. -/
def Frozen (s : BlobState Hash) (inode : ℕ) : Prop :=
  inode < s.disk.next ∧ (∀ key, s.disk.tmp.lookup key ≠ some inode) ∧
    ∀ j task, s.tasks j = some task → ¬ Owns inode task

/-- What a call in flight relies on. -/
def Fits (s : BlobState Hash) : BlobTask Hash → Prop
  | .put key bytes (.write inode n) =>
    inode < s.disk.next ∧ s.disk.contents inode = bytes.take n ∧ n < bytes.length ∧
      (∀ k, s.disk.tmp.lookup k = some inode → k = key) ∧
      ∀ i, s.disk.tmp.lookup key = some i → i = inode
  | .put key bytes .rename => ∀ i, s.disk.tmp.lookup key = some i → s.disk.contents i = bytes
  | .getRange _ _ _ (.read inode data) => Frozen s inode ∧ data <+: s.disk.contents inode
  | _ => True

structure Sound (s : BlobState Hash) : Prop where
  visible : ∀ key i, s.disk.files.lookup key = some i → Frozen s i
  tmp_lt : ∀ key i, s.disk.tmp.lookup key = some i → i < s.disk.next
  tmp_inj : ∀ k k' i, s.disk.tmp.lookup k = some i → s.disk.tmp.lookup k' = some i → k = k'
  fits : ∀ j task, s.tasks j = some task → Fits s task
  sole : ∀ i j t u, s.tasks i = some t → s.tasks j = some u → Contend t u → i = j

/-- The task `i` has moved on, and the disk with it. -/
abbrev moved (s : BlobState Hash) (i : ℕ) (new : BlobTask Hash) (d : Disk Hash) : BlobState Hash :=
  ⟨d, Function.update s.tasks i (some new)⟩

/-- The disk keeps its inodes and loses at most temporary paths. -/
structure Drops (d d' : Disk Hash) : Prop where
  contents : d'.contents = d.contents
  next : d'.next = d.next
  tmp : ∀ key i, d'.tmp.lookup key = some i → d.tmp.lookup key = some i

theorem Drops.refl (d : Disk Hash) : Drops d d := ⟨rfl, rfl, fun _ _ h => h⟩

theorem Drops.erase (d : Disk Hash) (key : Hash) (files : Table Hash ℕ) :
    Drops d { d with files := files, tmp := d.tmp.erase key } := by
  refine ⟨rfl, rfl, fun k j hj => ?_⟩
  rw [Table.lookup_erase_if] at hj
  split at hj
  · cases hj
  · exact hj

section
variable {s : BlobState Hash} {i : ℕ} {old new : BlobTask Hash} {d : Disk Hash}

theorem Frozen.drops {inode : ℕ} (h : Frozen s inode) (hd : Drops s.disk d)
    (hnew : ¬ Owns inode new) : Frozen (moved s i new d) inode := by
  refine ⟨hd.next ▸ h.1, fun key hk => h.2.1 key (hd.tmp key inode hk), ?_⟩
  exact Run.update_forall (fun j u hu => h.2.2 j u hu) hnew

theorem Fits.drops {task : BlobTask Hash} (h : Fits s task) (hd : Drops s.disk d)
    (hnew : ∀ inode, ¬ Owns inode new) : Fits (moved s i new d) task := by
  cases task with
  | put key bytes pc =>
    cases pc with
    | write inode n =>
      obtain ⟨hlt, hc, hn, howner, hown⟩ := h
      exact ⟨hd.next ▸ hlt, by rw [← hc, hd.contents], hn, fun k hk => howner k (hd.tmp k _ hk),
        fun j hj => hown j (hd.tmp key j hj)⟩
    | rename => exact fun j hj => by rw [hd.contents]; exact h j (hd.tmp key j hj)
    | _ => trivial
  | getRange key start stop pc =>
    cases pc with
    | open_ => trivial
    | read inode data => exact ⟨h.1.drops hd (hnew inode), by rw [hd.contents]; exact h.2⟩
  | _ => trivial

/-- A step that writes nothing and keeps, or puts in place, frozen inodes. -/
theorem Sound.drops (hs : Sound s) (hd : Drops s.disk d)
    (hfiles : ∀ key inode, d.files.lookup key = some inode → Frozen (moved s i new d) inode)
    (hnew : ∀ key, ¬ Writing key new) (hfits : Fits (moved s i new d) new) :
    Sound (moved s i new d) where
  visible := hfiles
  tmp_lt := fun key j hj => hd.next ▸ hs.tmp_lt key j (hd.tmp key j hj)
  tmp_inj := fun k k' j hk hk' => hs.tmp_inj k k' j (hd.tmp k j hk) (hd.tmp k' j hk')
  fits := Run.update_forall
    (fun j u hu => (hs.fits j u hu).drops hd fun inode ho => ho.writing.elim hnew) hfits
  sole := by
    refine Run.update_sole hs.sole fun j u _ _ => ⟨?_, ?_⟩
    · rintro (⟨key, ht, _⟩ | ⟨inode, ht, _⟩)
      · exact hnew key ht
      · exact ht.writing.elim hnew
    · rintro (⟨key, _, ht⟩ | ⟨inode, _, ht⟩)
      · exact hnew key ht
      · exact ht.writing.elim hnew

end

/-- The disk after one inode, the temporary file of a key, was written. -/
structure Touches (d : Disk Hash) (key : Hash) (inode : ℕ) (d' : Disk Hash) : Prop where
  contents : ∀ j, j ≠ inode → d'.contents j = d.contents j
  files : d'.files = d.files
  next : d.next ≤ d'.next
  lt : inode < d'.next
  tmp : ∀ k j, d'.tmp.lookup k = some j → d.tmp.lookup k = some j ∨ (k = key ∧ j = inode)
  owner : ∀ k, d'.tmp.lookup k = some inode → k = key
  own : ∀ j, d'.tmp.lookup key = some j → j = inode

theorem create_touches {s : BlobState Hash} (hs : Sound s) (key : Hash) :
    Touches s.disk key (s.disk.create key).1 (s.disk.create key).2 ∧
      (s.disk.create key).2.contents (s.disk.create key).1 = [] ∧
      ((s.disk.tmp.lookup key = some (s.disk.create key).1) ∨
        (s.disk.create key).1 = s.disk.next) := by
  unfold Disk.create
  cases htmp : s.disk.tmp.lookup key with
  | some inode =>
    refine ⟨?_, Function.update_self .., .inl rfl⟩
    exact {
      contents := fun j hj => Function.update_of_ne hj _ _
      files := rfl
      next := Nat.le_refl _
      lt := hs.tmp_lt key inode htmp
      tmp := fun k j hj => .inl hj
      owner := fun k hk => hs.tmp_inj k key inode hk htmp
      own := fun j hj => Option.some.inj (hj.symm.trans htmp) }
  | none =>
    refine ⟨?_, Function.update_self .., .inr rfl⟩
    have hlook : ∀ k j, (s.disk.tmp.insert key s.disk.next).lookup k = some j →
        (k ≠ key ∧ s.disk.tmp.lookup k = some j) ∨ (k = key ∧ j = s.disk.next) := by
      intro k j hj
      rw [Table.lookup_insert_if] at hj
      split at hj
      · exact .inr ⟨‹_›, (Option.some.inj hj).symm⟩
      · exact .inl ⟨‹_›, hj⟩
    exact {
      contents := fun j hj => Function.update_of_ne hj _ _
      files := rfl
      next := Nat.le_succ _
      lt := Nat.lt_succ_self _
      tmp := fun k j hj => (hlook k j hj).imp And.right id
      owner := by
        intro k hk
        rcases hlook k _ hk with ⟨_, hk⟩ | ⟨rfl, _⟩
        · exact absurd (hs.tmp_lt k _ hk) (Nat.lt_irrefl _)
        · rfl
      own := by
        intro j hj
        rcases hlook key j hj with ⟨hne, _⟩ | ⟨_, rfl⟩
        · exact absurd rfl hne
        · rfl }

section
variable {s : BlobState Hash} {i : ℕ} {key : Hash} {bytes : Bytes} {inode n : ℕ} {d : Disk Hash}

theorem write_touches (hs : Sound s) (hi : s.tasks i = some (.put key bytes (.write inode n)))
    (piece : Bytes) : Touches s.disk key inode (s.disk.write inode n piece) := by
  obtain ⟨hlt, _, _, howner, hown⟩ := hs.fits i _ hi
  exact {
    contents := fun j hj => Function.update_of_ne hj _ _
    files := rfl
    next := Nat.le_refl _
    lt := hlt
    tmp := fun k j hj => .inl hj
    owner := howner
    own := hown }

theorem write_contents (hs : Sound s) (hi : s.tasks i = some (.put key bytes (.write inode n)))
    (m : ℕ) : (s.disk.write inode n ((bytes.drop n).take m)).contents inode =
      bytes.take (n + ((bytes.drop n).take m).length) := by
  obtain ⟨_, hc, hn, _⟩ := hs.fits i _ hi
  have hlen : (bytes.take n).length = n := List.length_take_of_le (Nat.le_of_lt hn)
  have hpiece := List.prefix_iff_eq_take.mp (List.take_prefix m (bytes.drop n))
  calc (s.disk.write inode n ((bytes.drop n).take m)).contents inode
      = Cells.overlay 0 (bytes.take n) (bytes.take n).length ((bytes.drop n).take m) := by
        simp only [Disk.write, Function.update_self, hc, hlen]
    _ = bytes.take n ++ (bytes.drop n).take m := Cells.overlay_append _ _
    _ = bytes.take (n + ((bytes.drop n).take m).length) := by
        rw [List.take_add, ← hpiece]

variable (ht : Touches s.disk key inode d)
include ht

theorem Frozen.touches {j : ℕ} (h : Frozen s j) (hj : j ≠ inode) :
    Frozen (moved s i (.put key bytes (.writing bytes inode n)) d) j := by
  refine ⟨Nat.lt_of_lt_of_le h.1 ht.next, ?_, ?_⟩
  · intro k hk
    rcases ht.tmp k j hk with hk | ⟨_, rfl⟩
    · exact h.2.1 k hk
    · exact hj rfl
  · exact Run.update_forall (fun a u hu => h.2.2 a u hu) fun ho => hj (writing_owns ho).symm

theorem Fits.touches {task : BlobTask Hash} (h : Fits s task) (hkey : ¬ Writing key task)
    (hinode : ¬ Owns inode task) (hfrozen : ∀ j, Frozen s j → j ≠ inode) :
    Fits (moved s i (.put key bytes (.writing bytes inode n)) d) task := by
  have hold : ∀ k j, k ≠ key → d.tmp.lookup k = some j → s.disk.tmp.lookup k = some j ∧
      j ≠ inode := by
    intro k j hk hj
    rcases ht.tmp k j hj with hl | ⟨hk', _⟩
    · exact ⟨hl, fun he => hk (ht.owner k (he ▸ hj))⟩
    · exact absurd hk' hk
  cases task with
  | put k b pc =>
    cases pc with
    | write a m =>
      obtain ⟨hlt, hc, hm, howner, hown⟩ := h
      have ha : a ≠ inode := hinode
      have hk : k ≠ key := hkey
      refine ⟨Nat.lt_of_lt_of_le hlt ht.next, by rw [← hc]; exact ht.contents a ha, hm, ?_,
        fun j hj => hown j (hold k j hk hj).1⟩
      intro k' hk'
      rcases ht.tmp k' a hk' with hl | ⟨_, he⟩
      · exact howner k' hl
      · exact absurd he ha
    | rename =>
      intro j hj
      obtain ⟨hl, hne⟩ := hold k j hkey hj
      rw [← h j hl]
      exact ht.contents j hne
    | _ => trivial
  | getRange k start stop pc =>
    cases pc with
    | open_ => trivial
    | read a data =>
      have hne := hfrozen a h.1
      exact ⟨h.1.touches ht hne, by rw [ht.contents a hne]; exact h.2⟩
  | _ => trivial

/-- A step that leaves the first `n` bytes in the temporary file of a key that
no other `put` is using. -/
theorem Sound.touches (hs : Sound s) (hc : d.contents inode = bytes.take n)
    (hothers : ∀ j task, j ≠ i → s.tasks j = some task → ¬ Writing key task ∧ ¬ Owns inode task)
    (hfrozen : ∀ j, Frozen s j → j ≠ inode) :
    Sound (moved s i (.put key bytes (.writing bytes inode n)) d) where
  visible := by
    intro k j hk
    have hj := hs.visible k j (ht.files ▸ hk)
    exact hj.touches ht (hfrozen j hj)
  tmp_lt := by
    intro k j hk
    rcases ht.tmp k j hk with hk | ⟨_, rfl⟩
    · exact Nat.lt_of_lt_of_le (hs.tmp_lt k j hk) ht.next
    · exact ht.lt
  tmp_inj := by
    intro k k' j hk hk'
    by_cases hj : j = inode
    · subst hj
      rw [ht.owner k hk, ht.owner k' hk']
    · rcases ht.tmp k j hk with hl | ⟨_, he⟩
      · rcases ht.tmp k' j hk' with hl' | ⟨_, he⟩
        · exact hs.tmp_inj k k' j hl hl'
        · exact absurd he hj
      · exact absurd he hj
  fits := by
    intro j task hj
    rcases Run.update_eq_some.mp hj with ⟨rfl, rfl⟩ | ⟨hne, hj⟩
    · unfold PutPc.writing
      split
      · exact ⟨ht.lt, hc, ‹_›, ht.owner, ht.own⟩
      · intro a ha
        rw [ht.own a ha]
        exact hc.trans (List.take_of_length_le (Nat.le_of_not_lt ‹_›))
    · obtain ⟨hw, ho⟩ := hothers j task hne hj
      exact (hs.fits j task hj).touches ht hw ho hfrozen
  sole := by
    refine Run.update_sole hs.sole fun j u hj hu => ?_
    obtain ⟨hw, ho⟩ := hothers j u hj hu
    constructor
    · rintro (⟨k, hk, hk'⟩ | ⟨a, ha, ha'⟩)
      · exact hw (writing_writing hk ▸ hk')
      · exact ho (writing_owns ha ▸ ha')
    · rintro (⟨k, hk', hk⟩ | ⟨a, ha', ha⟩)
      · exact hw (writing_writing hk ▸ hk')
      · exact ho (writing_owns ha ▸ ha')

end

/-- A temporary path shares its inode with no other path. -/
structure WellFormed (d : Disk Hash) : Prop where
  files_lt : ∀ key i, d.files.lookup key = some i → i < d.next
  tmp_lt : ∀ key i, d.tmp.lookup key = some i → i < d.next
  tmp_inj : ∀ k k' i, d.tmp.lookup k = some i → d.tmp.lookup k' = some i → k = k'
  apart : ∀ k k' i, d.files.lookup k = some i → d.tmp.lookup k' ≠ some i

theorem wellFormed_empty : WellFormed ({} : Disk Hash) := by
  constructor <;> simp

def boot (d : Disk Hash) : BlobState Hash := { disk := d }

theorem boot_sound {d : Disk Hash} (hd : WellFormed d) : Sound (boot d) where
  visible := fun key i h => ⟨hd.files_lt key i h, fun k => hd.apart key k i h,
    fun _ _ hj => nomatch hj⟩
  tmp_lt := hd.tmp_lt
  tmp_inj := hd.tmp_inj
  fits := fun _ _ hj => nomatch hj
  sole := fun _ _ _ _ hj => nomatch hj

end Dejaveph.Server.TempFiles
