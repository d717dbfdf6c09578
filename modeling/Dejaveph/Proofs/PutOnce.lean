import Dejaveph.Server.Effects

namespace Dejaveph.Proofs.PutOnce
open Lib Server TempFiles Points Effects
variable {Hash : Type}

/-- Where a task stands, as the log has it. -/
def Logged (d : Disk Hash) (log : List (Point Hash)) (i : ℕ) : BlobTask Hash → Prop
  | .put key bytes .removeTmp => ⟨i, .put key bytes, .put false⟩ ∈ log
  | .getRange key start stop (.read inode _) =>
    ⟨i, .getRange key start stop, .body (some (d.contents inode))⟩ ∈ log
  | .returned call r => Answered log i call r
  | _ => ∀ p ∈ log, p.id ≠ i

theorem logged_writing {d : Disk Hash} {log : List (Point Hash)} {i : ℕ} {key : Hash}
    {bytes : Bytes} {inode n : ℕ} (h : ∀ p ∈ log, p.id ≠ i) :
    Logged d log i (.put key bytes (.writing bytes inode n)) := by
  unfold PutPc.writing
  split
  · exact h
  · exact h

/-- The log after a step that is, or is not, a point. -/
def extended (log : List (Point Hash)) (i : ℕ) (call : BlobCall Hash) (seen : Option Seen) :
    List (Point Hash) :=
  log ++ (seen.map fun e => (⟨i, call, e⟩ : Point Hash)).toList

@[simp] theorem extended_none (call : BlobCall Hash) : extended log i call none = log :=
  List.append_nil log

theorem mem_extended (call : BlobCall Hash) (e : Seen) :
    ⟨i, call, e⟩ ∈ extended log i call (some e) := by
  simp [extended]

variable [DecidableEq Hash]

structure Accounts (s : BlobState Hash) (log : List (Point Hash)) : Prop where
  sound : Sound s
  once : (log.map Point.id).Nodup
  called : ∀ p ∈ log, ∃ task, s.tasks p.id = some task ∧ task.call = p.call
  logged : ∀ i task, s.tasks i = some task → Logged s.disk log i task

section
variable {d : Disk Hash} {log : List (Point Hash)} {i : ℕ}

theorem Logged.fresh {task : BlobTask Hash} {os : Os} {seen : Seen} (h : Logged d log i task)
    (hs : sees os d task = some seen) : ∀ p ∈ log, p.id ≠ i := by
  cases task with
  | put key bytes pc =>
    cases pc with
    | removeTmp => cases os <;> cases hs
    | _ => exact h
  | getRange key start stop pc =>
    cases pc with
    | open_ => exact h
    | read inode data => cases os <;> cases hs
  | returned call r => cases hs
  | _ => exact h

theorem putStep_logged {key : Hash} {bytes : Bytes} {pc : PutPc} (os : Os)
    (h : Logged d log i (.put key bytes pc)) :
    Logged (d.putStep key bytes pc os).2
      (extended log i (.put key bytes) (sees os d (.put key bytes pc))) i
      (d.putStep key bytes pc os).1 := by
  cases pc with
  | tryExists =>
    cases os with
    | ok n =>
      by_cases hk : key ∈ d.files
      · simp only [Disk.putStep, sees, if_pos hk]
        exact .inl ⟨.put false, mem_extended _ _, rfl⟩
      · simp only [Disk.putStep, sees, if_neg hk, extended_none]
        exact h
    | fail e =>
      simp only [Disk.putStep, sees, extended_none]
      exact h
  | createDir =>
    cases os with
    | ok n =>
      simp only [Disk.putStep, sees, extended_none]
      exact h
    | fail e =>
      simp only [Disk.putStep, sees, extended_none]
      exact answered_failed h trivial
  | create =>
    cases os with
    | ok n =>
      simp only [Disk.putStep, sees, extended_none]
      exact logged_writing h
    | fail e =>
      simp only [Disk.putStep, sees, extended_none]
      exact answered_failed h trivial
  | write inode n =>
    cases os with
    | ok m =>
      by_cases hp : (bytes.drop n).take m = []
      · simp only [Disk.putStep, sees, if_pos hp, extended_none]
        exact answered_failed h trivial
      · simp only [Disk.putStep, sees, if_neg hp, extended_none]
        exact logged_writing h
    | fail e =>
      simp only [Disk.putStep, sees, extended_none]
      exact answered_failed h trivial
  | rename =>
    cases os with
    | ok n =>
      cases htmp : d.tmp.lookup key with
      | some inode =>
        simp only [Disk.putStep, sees, htmp, if_pos (Table.mem_of_lookup htmp)]
        exact .inl ⟨.put true, mem_extended _ _, rfl⟩
      | none =>
        have hmem : key ∉ d.tmp := AList.lookup_eq_none.mp htmp
        simp only [Disk.putStep, sees, htmp, if_neg hmem, extended_none]
        exact h
    | fail e =>
      simp only [Disk.putStep, sees, extended_none]
      exact h
  | recheck e =>
    cases os with
    | ok n =>
      by_cases hk : key ∈ d.files
      · simp only [Disk.putStep, sees, if_pos hk]
        exact mem_extended _ _
      · simp only [Disk.putStep, sees, if_neg hk, extended_none]
        exact answered_failed h trivial
    | fail e' =>
      simp only [Disk.putStep, sees, extended_none]
      exact answered_failed h trivial
  | removeTmp =>
    cases os <;> exact .inl ⟨.put false, List.mem_append_left _ h, rfl⟩

/-- A read has seen the whole file where it was opened. -/
theorem getRangeStep_logged {s : BlobState Hash} {key : Hash} {start stop : ℕ} {pc : ReadPc}
    (os : Os) (hf : Fits s (.getRange key start stop pc)) (hn : (log.map Point.id).Nodup)
    (h : Logged s.disk log i (.getRange key start stop pc)) :
    Logged s.disk
      (extended log i (.getRange key start stop) (sees os s.disk (.getRange key start stop pc))) i
      (s.disk.getRangeStep key start stop pc os) := by
  cases pc with
  | open_ =>
    cases os with
    | ok n =>
      simp only [Disk.getRangeStep, sees, Disk.body]
      cases hk : s.disk.files.lookup key with
      | none => exact .inl ⟨.body none, mem_extended _ _, rfl⟩
      | some inode => exact mem_extended _ _
    | fail e =>
      simp only [Disk.getRangeStep, sees, extended_none]
      exact answered_failed h trivial
  | read inode data =>
    cases os with
    | ok n =>
      by_cases hp : ((s.disk.contents inode).drop data.length).take (max n 1) = []
      · simp only [Disk.getRangeStep, sees, if_pos hp, extended_none]
        refine .inl ⟨_, h, ?_⟩
        rw [← Disk.read_ended hf.2 hp]
        rfl
      · simp only [Disk.getRangeStep, sees, if_neg hp, extended_none]
        exact h
    | fail e =>
      simp only [Disk.getRangeStep, sees, extended_none]
      refine .inr ⟨trivial, fun p hp hi => ?_⟩
      have hsame := List.inj_on_of_nodup_map hn hp h hi
      exact ⟨_, congrArg Point.seen hsame⟩

theorem head_logged {key : Hash} (os : Os) (h : Logged d log i (.head key)) :
    Logged d (extended log i (.head key) (sees os d (.head key))) i
      (.returned (.head key) (.head (d.head key os))) := by
  cases os with
  | ok n => exact .inl ⟨_, mem_extended _ _, rfl⟩
  | fail e =>
    simp only [sees, extended_none]
    exact answered_failed h trivial

theorem delete_logged {key : Hash} (os : Os) (h : Logged d log i (.delete key)) :
    Logged (d.delete key os).2 (extended log i (.delete key) (sees os d (.delete key))) i
      (.returned (.delete key) (.delete (d.delete key os).1)) := by
  cases os with
  | ok n => exact .inl ⟨.delete, mem_extended _ _, rfl⟩
  | fail e =>
    simp only [sees, extended_none]
    exact answered_failed h trivial

theorem advance_logged {s : BlobState Hash} {task : BlobTask Hash}
    {p : BlobTask Hash × Disk Hash} {os : Os} (hf : Fits s task) (hn : (log.map Point.id).Nodup)
    (hl : Logged s.disk log i task) (h : task.advance os s.disk = some p) :
    Logged p.2 (extended log i task.call (sees os s.disk task)) i p.1 := by
  cases task with
  | put key bytes pc =>
    obtain rfl := Option.some.inj h
    exact putStep_logged os hl
  | head key =>
    obtain rfl := Option.some.inj h
    exact head_logged os hl
  | getRange key start stop pc =>
    obtain rfl := Option.some.inj h
    exact getRangeStep_logged os hf hn hl
  | delete key =>
    obtain rfl := Option.some.inj h
    exact delete_logged os hl
  | returned call r => cases h

/-- What the log has of a call outlives the steps of others. -/
theorem Logged.outlives {s t : BlobState Hash} {task : BlobTask Hash} {j : ℕ}
    {call : BlobCall Hash} {seen : Option Seen} (hf : Fits s task)
    (hfrozen : ∀ inode, Frozen s inode → t.disk.contents inode = s.disk.contents inode)
    (hne : j ≠ i) (h : Logged s.disk log j task) :
    Logged t.disk (extended log i call seen) j task := by
  have hother : ∀ p ∈ extended log i call seen, p.id = j → p ∈ log := by
    intro p hp hj
    rcases List.mem_append.mp hp with hp | hp
    · exact hp
    · obtain ⟨e, _, rfl⟩ := Option.map_eq_some_iff.mp (Option.mem_toList.mp hp)
      exact absurd hj.symm hne
  cases task with
  | put key bytes pc =>
    cases pc with
    | removeTmp => exact List.mem_append_left _ h
    | _ => exact fun p hp hj => h p (hother p hp hj) hj
  | getRange key start stop pc =>
    cases pc with
    | open_ => exact fun p hp hj => h p (hother p hp hj) hj
    | read inode data =>
      change (⟨j, _, .body (some (t.disk.contents inode))⟩ : Point Hash) ∈ _
      rw [hfrozen inode hf.1]
      exact List.mem_append_left _ h
  | returned c r =>
    rcases h with ⟨seen', hm, hr⟩ | ⟨hr, hno⟩
    · exact .inl ⟨seen', List.mem_append_left _ hm, hr⟩
    · exact .inr ⟨hr, fun p hp hj => hno p (hother p hp hj) hj⟩
  | _ => exact fun p hp hj => h p (hother p hp hj) hj

end

theorem advance_call {task : BlobTask Hash} {p : BlobTask Hash × Disk Hash} {os : Os}
    {d : Disk Hash} (h : task.advance os d = some p) : p.1.call = task.call := by
  cases task with
  | put key bytes pc =>
    obtain rfl := Option.some.inj h
    cases pc <;> cases os <;> simp only [Disk.putStep]
    all_goals first | rfl | (split <;> rfl)
  | getRange key start stop pc =>
    obtain rfl := Option.some.inj h
    cases pc <;> cases os <;> simp only [Disk.getRangeStep]
    all_goals first | rfl | (split <;> rfl)
  | returned call r => cases h
  | _ =>
    obtain rfl := Option.some.inj h
    rfl

theorem call_accounts {s : BlobState Hash} {log : List (Point Hash)} {i : ℕ} (c : BlobCall Hash)
    (ha : Accounts s log) (hi : s.tasks i = none) : Accounts (moved s i c.start s.disk) log := by
  have hfresh : ∀ p ∈ log, p.id ≠ i := by
    rintro p hp rfl
    obtain ⟨task, ht, _⟩ := ha.called p hp
    rw [hi] at ht
    cases ht
  refine ⟨call_sound ha.sound i c, ha.once, ?_, ?_⟩
  · intro p hp
    obtain ⟨task, ht, hc⟩ := ha.called p hp
    exact ⟨task, (Function.update_of_ne (hfresh p hp) _ _).trans ht, hc⟩
  · intro j task hj
    rcases Run.update_eq_some.mp hj with ⟨rfl, rfl⟩ | ⟨_, hj⟩
    · cases c <;> exact hfresh
    · exact ha.logged j task hj

theorem step_accounts {s : BlobState Hash} {log : List (Point Hash)} {i : ℕ} {os : Os}
    {task : BlobTask Hash} {p : BlobTask Hash × Disk Hash} (ha : Accounts s log)
    (hi : s.tasks i = some task) (hc : Undisturbed s (.step i os))
    (hp : task.advance os s.disk = some p) :
    Accounts (moved s i p.1 p.2) (extended log i task.call (sees os s.disk task)) := by
  have hpass := advance_passes ha.sound hi hc.creates (fun _ : True => hc.renames) hp
  refine ⟨hpass.sound, ?_, ?_, ?_⟩
  · cases hs : sees os s.disk task with
    | none =>
      rw [extended_none]
      exact ha.once
    | some e =>
      have hfresh := (ha.logged i task hi).fresh hs
      simpa [extended, List.nodup_append] using ⟨ha.once, hfresh⟩
  · intro q hq
    rcases List.mem_append.mp hq with hq | hq
    · obtain ⟨u, hu, hcall⟩ := ha.called q hq
      by_cases hqi : q.id = i
      · rw [hqi, hi] at hu
        cases hu
        exact ⟨p.1, by rw [hqi]; exact Function.update_self .., (advance_call hp).trans hcall⟩
      · exact ⟨u, (Function.update_of_ne hqi _ _).trans hu, hcall⟩
    · obtain ⟨e, _, rfl⟩ := Option.map_eq_some_iff.mp (Option.mem_toList.mp hq)
      exact ⟨p.1, Function.update_self .., advance_call hp⟩
  · intro j u hj
    rcases Run.update_eq_some.mp hj with ⟨rfl, rfl⟩ | ⟨hne, hj⟩
    · exact advance_logged (ha.sound.fits j task hi) ha.once (ha.logged j task hi) hp
    · exact (ha.logged j u hj).outlives (ha.sound.fits j u hj) hpass.frozen hne

theorem point_step {s t : BlobState Hash} {i : ℕ} {os : Os} {task : BlobTask Hash}
    (hi : s.tasks i = some task) (log : List (Point Hash)) :
    log ++ (point s (.step i os) t).toList =
      extended log i task.call (sees os s.disk task) := by
  simp only [point, hi, Option.bind_some, extended]

theorem accounts_step (s : BlobState Hash) (log : List (Point Hash)) (l : BlobLabel Hash)
    (t : BlobState Hash) (ha : Accounts s log) (hc : Undisturbed s l) (h : blobStep s l = some t) :
    Accounts t (log ++ (point s l t).toList) := by
  cases l with
  | call i c =>
    obtain ⟨hi, rfl⟩ := blobStep_call h
    rw [point, Option.toList_none, List.append_nil]
    exact call_accounts c ha hi
  | step i os =>
    obtain ⟨task, p, hi, hp, rfl⟩ := blobStep_step h
    rw [point_step hi]
    exact step_accounts ha hi hc hp

/-- What a step makes of the disk it makes of the map, in one operation or none. -/
theorem holds_step (s : BlobState Hash) (l : BlobLabel Hash) (t : BlobState Hash)
    (m : Table Hash Bytes) (hr : Sound s ∧ Holds s.disk m) (hc : Undisturbed s l)
    (h : blobStep s l = some t) :
    (point s l t = none ∧ Sound t ∧ Holds t.disk m) ∨
      ∃ p m', point s l t = some p ∧ Agrees m p.call p.seen m' ∧ Sound t ∧ Holds t.disk m' := by
  obtain ⟨hs, hm⟩ := hr
  cases l with
  | call i c =>
    obtain ⟨_, rfl⟩ := blobStep_call h
    exact .inl ⟨rfl, call_sound hs i c, hm⟩
  | step i os =>
    obtain ⟨task, p, hi, hp, rfl⟩ := blobStep_step h
    have hpass := advance_passes hs hi hc.creates (fun _ : True => hc.renames) hp
    have heffect := hpass.effect trivial m hm
    simp only [point, hi, Option.bind_some]
    cases hseen : sees os s.disk task with
    | none =>
      rw [hseen] at heffect
      exact .inl ⟨rfl, hpass.sound, heffect⟩
    | some e =>
      rw [hseen] at heffect
      obtain ⟨m', hagrees, hm'⟩ := heffect
      exact .inr ⟨_, m', rfl, hagrees, hpass.sound, hm'⟩

section
variable {s t : BlobState Hash} {labels : List (BlobLabel Hash)}

theorem run_sound (hs : Sound s) (hg : Run.Guarded blobStep Undisturbed s labels)
    (h : Run.exec blobStep s labels = some t) : Sound t :=
  Run.exec_invariant (fun _ _ _ hs hc h => step_sound hs hc.creates h) hs hg h

theorem run_serial (hs : Sound s) (hg : Run.Guarded blobStep Undisturbed s labels)
    (h : Run.exec blobStep s labels = some t) :
    ∃ m, Serial (objects s.disk) (points s labels) m ∧ Holds t.disk m := by
  obtain ⟨m, hruns, _, hm⟩ := Run.events_runs holds_step ⟨hs, holds_objects s.disk⟩ hg h
  exact ⟨m, hruns, hm⟩

theorem returned_done {i : ℕ} {call : BlobCall Hash} {r : BlobResult}
    (hi : s.tasks i = some (.returned call r)) (h : Run.exec blobStep s labels = some t) :
    ∀ p ∈ points s labels, p.id ≠ i := by
  have hinv : t.tasks i = some (.returned call r) ∧ ∀ p ∈ [] ++ points s labels, p.id ≠ i := by
    refine Run.exec_events (I := fun (u : BlobState Hash) (log : List (Point Hash)) =>
      u.tasks i = some (.returned call r) ∧ ∀ p ∈ log, p.id ≠ i) ?_ ⟨hi, by simp⟩ h
    rintro u log l v ⟨hu, hlog⟩ hstep
    cases l with
    | call j c =>
      obtain ⟨hj, rfl⟩ := blobStep_call hstep
      have hne : i ≠ j := by
        rintro rfl
        rw [hu] at hj
        cases hj
      refine ⟨(Function.update_of_ne hne _ _).trans hu, ?_⟩
      rw [point, Option.toList_none, List.append_nil]
      exact hlog
    | step j os =>
      obtain ⟨task, p, hj, hp, rfl⟩ := blobStep_step hstep
      have hne : i ≠ j := by
        rintro rfl
        rw [hu] at hj
        cases hj
        cases hp
      refine ⟨(Function.update_of_ne hne _ _).trans hu, ?_⟩
      rw [point_step hj]
      intro q hq
      rcases List.mem_append.mp hq with hq | hq
      · exact hlog q hq
      · obtain ⟨e, _, rfl⟩ := Option.map_eq_some_iff.mp (Option.mem_toList.mp hq)
        exact hne.symm
  exact hinv.2

end

/-- Each call takes effect in one step between its beginning and its return,
and the write-once map gives every call what it returns. -/
structure Linearized (d : Disk Hash) (labels : List (BlobLabel Hash)) (s : BlobState Hash) :
    Prop where
  serial : ∃ m, Serial (objects d) (points (boot d) labels) m ∧ Holds s.disk m
  once : ((points (boot d) labels).map Point.id).Nodup
  answered : ∀ i call r, s.tasks i = some (.returned call r) →
    Answered (points (boot d) labels) i call r
  in_time : ∀ before after u, labels = before ++ after →
    Run.exec blobStep (boot d) before = some u →
      points (boot d) labels = points (boot d) before ++ points u after ∧
      (∀ p ∈ points (boot d) before, ∃ task, u.tasks p.id = some task ∧ task.call = p.call) ∧
      ∀ p ∈ points u after, ∀ call r, u.tasks p.id ≠ some (.returned call r)

/-- The bytes were there from the start, or a `put` of the key was given them. -/
def Passed (d : Disk Hash) (log : List (Point Hash)) (key : Hash) (b : Bytes) : Prop :=
  d.body key = some b ∨ ∃ p ∈ log, p.call = .put key b

/-- A key is inserted once between deletions, only complete bodies are seen,
and an object keeps its bytes until it is deleted. -/
structure KeptWhole (d : Disk Hash) (labels : List (BlobLabel Hash)) (s : BlobState Hash) :
    Prop where
  inserted : ∀ key b c l₁ l₂ l₃ p q, points (boot d) labels = l₁ ++ p :: l₂ ++ q :: l₃ →
    p.call = .put key b → p.seen = .put true → q.call = .put key c → q.seen = .put true →
      ∃ e ∈ l₂, e.call = .delete key
  head : ∀ p ∈ points (boot d) labels, ∀ key n, p.call = .head key → p.seen = .head (some n) →
    ∃ b, Passed d (points (boot d) labels) key b ∧ n = b.length
  getRange : ∀ p ∈ points (boot d) labels, ∀ key start stop b,
    p.call = .getRange key start stop → p.seen = .body (some b) →
      Passed d (points (boot d) labels) key b
  object : ∀ key b, s.disk.body key = some b → Passed d (points (boot d) labels) key b
  stable : ∀ before after u key b, labels = before ++ after →
    Run.exec blobStep (boot d) before = some u → u.disk.body key = some b →
      s.disk.body key = some b ∨ ∃ p ∈ points u after, p.call = .delete key

section
variable {d : Disk Hash} {labels : List (BlobLabel Hash)} {s : BlobState Hash}

theorem linearized (hd : WellFormed d) (hg : Run.Guarded blobStep Undisturbed (boot d) labels)
    (h : Run.exec blobStep (boot d) labels = some s) : Linearized d labels s := by
  have hboot : Accounts (boot d) [] :=
    ⟨boot_sound hd, List.nodup_nil, by simp, fun i task (hj : none = some task) => by cases hj⟩
  have hrun : ∀ ls u, Run.Guarded blobStep Undisturbed (boot d) ls →
      Run.exec blobStep (boot d) ls = some u → Accounts u (points (boot d) ls) :=
    fun ls u hg h => Run.exec_events_guarded accounts_step hboot hg h
  have hs := hrun labels s hg h
  refine ⟨run_serial hboot.sound hg h, hs.once, fun i call r hi => hs.logged i _ hi, ?_⟩
  rintro before after u rfl hu
  obtain ⟨hgb, _⟩ := Run.guarded_append.mp hg
  obtain ⟨u', hu', hafter⟩ := Run.exec_append.mp h
  obtain rfl := Option.some.inj (hu.symm.trans hu')
  refine ⟨Run.events_append hu, (hrun before u hgb hu).called, ?_⟩
  intro p hp call r hret
  exact returned_done hret hafter p hp rfl

theorem serial_passed {log more : List (Point Hash)} {m : Table Hash Bytes} {key : Hash} {b : Bytes}
    (h : Serial (objects d) log m) (hb : m.lookup key = some b) (hmore : ∀ p ∈ log, p ∈ more) :
    Passed d more key b := by
  rcases h.origin hb with hb | ⟨p, hp, hput, _⟩
  · exact .inl ((holds_objects d key).symm.trans hb)
  · exact .inr ⟨p, hmore p hp, hput⟩

theorem kept_whole (hd : WellFormed d) (hg : Run.Guarded blobStep Undisturbed (boot d) labels)
    (h : Run.exec blobStep (boot d) labels = some s) : KeptWhole d labels s := by
  obtain ⟨m, hserial, hm⟩ := run_serial (boot_sound hd) hg h
  refine ⟨?_, ?_, ?_, ?_, ?_⟩
  · intro key b c l₁ l₂ l₃ p q he hp hp' hq hq'
    rw [he] at hserial
    exact hserial.inserts_once hp hp' hq hq'
  · intro p hp key n hcall hseen
    obtain ⟨l₁, l₂, m₁, m₂, he, hl, hag⟩ := hserial.shown hp
    rw [hcall, hseen] at hag
    obtain ⟨b, hb, hn⟩ := Option.map_eq_some_iff.mp hag.1.symm
    refine ⟨b, serial_passed hl hb fun q hq => ?_, hn.symm⟩
    rw [he]
    exact List.mem_append_left _ hq
  · intro p hp key start stop b hcall hseen
    obtain ⟨l₁, l₂, m₁, m₂, he, hl, hag⟩ := hserial.shown hp
    rw [hcall, hseen] at hag
    refine serial_passed hl hag.1.symm fun q hq => ?_
    rw [he]
    exact List.mem_append_left _ hq
  · intro key b hb
    exact serial_passed hserial ((hm key).trans hb) fun _ hp => hp
  · rintro before after u key b rfl hu hb
    obtain ⟨hgb, hga⟩ := Run.guarded_append.mp hg
    obtain ⟨u', hu', hafter⟩ := Run.exec_append.mp h
    obtain rfl := Option.some.inj (hu.symm.trans hu')
    obtain ⟨m', hs', hm'⟩ := run_serial (run_sound (boot_sound hd) hgb hu) (hga u hu) hafter
    rcases hs'.keeps ((holds_objects u.disk key).trans hb) with hk | hdel
    · exact .inl ((hm' key).symm.trans hk)
    · exact .inr hdel

/-- As long as the `put`s of a key take turns at its temporary file, and none
renames it over an object, the files on the disk are a linearizable write-once map. -/
theorem put_once (wellFormed : WellFormed d)
    (undisturbed : Run.Guarded blobStep Undisturbed (boot d) labels)
    (run : Run.exec blobStep (boot d) labels = some s) :
    Linearized d labels s ∧ KeptWhole d labels s :=
  ⟨linearized wellFormed undisturbed run, kept_whole wellFormed undisturbed run⟩

/-- `Undisturbed` as a test, over the calls below a bound. -/
def undisturbed (n : ℕ) (s : BlobState Hash) : BlobLabel Hash → Bool
  | .call i _ => decide (i < n)
  | .step i (.ok _) =>
    match s.tasks i with
    | some (.put key _ .create) =>
      (List.range n).all fun j => (s.tasks j).all fun task => decide (¬ Writing key task)
    | some (.put key _ .rename) => decide (key ∈ s.disk.tmp → key ∉ s.disk.files)
    | _ => true
  | .step _ (.fail _) => true

theorem undisturbed_sound {n : ℕ} {l : BlobLabel Hash} (hs : Run.Below n s.tasks)
    (h : undisturbed n s l = true) : Undisturbed s l := by
  cases l with
  | call i c => trivial
  | step i os =>
    cases os with
    | fail e => trivial
    | ok m =>
      simp only [undisturbed] at h
      simp only [Undisturbed]
      split
      · rename_i key bytes hi
        simp only [hi] at h
        intro j task hj
        exact of_decide_eq_true (hs.all h hj)
      · rename_i key bytes hi
        simp only [hi] at h
        exact of_decide_eq_true h
      · trivial

theorem undisturbed_below {n : ℕ} {l : BlobLabel Hash} {t : BlobState Hash}
    (hs : Run.Below n s.tasks) (h : undisturbed n s l = true) (hstep : blobStep s l = some t) :
    Run.Below n t.tasks := by
  refine blobStep_below hs ?_ hstep
  rintro i c rfl
  exact of_decide_eq_true h

end

/-- Two `put`s of a key that take turns, with a `head` and a `getRange` among
them, and a third after a deletion. -/
def turns : List (BlobLabel ℕ) :=
  [.call 0 (.put 7 [1, 2, 3]), .step 0 (.ok 0), .call 1 (.put 7 [1, 2, 3]), .step 1 (.ok 0),
    .step 0 (.ok 0), .step 0 (.ok 0), .step 0 (.ok 2), .call 2 (.head 7), .step 2 (.ok 0),
    .step 0 (.ok 2), .step 1 (.fail "disk full"), .step 0 (.ok 0), .call 3 (.getRange 7 1 5),
    .step 3 (.ok 0), .step 3 (.ok 2), .call 4 (.delete 7), .step 4 (.ok 0), .step 3 (.ok 2),
    .step 3 (.ok 2), .call 5 (.put 7 [1, 2, 3]), .step 5 (.ok 0), .step 5 (.ok 0),
    .step 5 (.ok 0), .step 5 (.ok 3), .step 5 (.ok 0), .call 6 (.put 7 [1, 2, 3]),
    .step 6 (.ok 0)]

/-- What they return. -/
def turnsEnd : List (Option (BlobTask ℕ)) := [
  some (.returned (.put 7 [1, 2, 3]) (.put (.ok true))),
  some (.returned (.put 7 [1, 2, 3]) (.put (.error "disk full"))),
  some (.returned (.head 7) (.head (.ok none))),
  some (.returned (.getRange 7 1 5) (.range (some (.ok [2, 3])))),
  some (.returned (.delete 7) (.delete (.ok ()))),
  some (.returned (.put 7 [1, 2, 3]) (.put (.ok true))),
  some (.returned (.put 7 [1, 2, 3]) (.put (.ok false)))]

theorem put_once_turns : ∃ s, Run.exec blobStep (boot {}) turns = some s ∧
    (List.range 7).map s.tasks = turnsEnd ∧ Linearized {} turns s ∧ KeptWhole {} turns s := by
  have hrun : (Run.exec blobStep (boot {}) turns).map (fun s => (List.range 7).map s.tasks) =
      some turnsEnd := by decide
  obtain ⟨s, hs, hend⟩ := Option.map_eq_some_iff.mp hrun
  have hg : Run.Guarded blobStep Undisturbed (boot {}) turns :=
    Run.guarded_of_check (I := fun s => Run.Below 7 s.tasks) (fun _ _ => undisturbed_sound)
      (fun _ _ _ => undisturbed_below) (fun _ _ => rfl)
      (by decide : Run.check blobStep (undisturbed 7) (boot {}) turns = true)
  exact ⟨s, hs, hend, put_once wellFormed_empty hg hs⟩

/-- Two `put`s of one body that pass the existence test together. -/
def together : List (BlobLabel ℕ) :=
  [.call 0 (.put 7 [1, 2, 3]), .call 1 (.put 7 [1, 2, 3]), .step 0 (.ok 0), .step 0 (.ok 0),
    .step 1 (.ok 0), .step 1 (.ok 0)]

/-- One after the other writes its file and renames it. -/
def twice : List (BlobLabel ℕ) :=
  together ++ [.step 0 (.ok 0), .step 0 (.ok 3), .step 0 (.ok 0), .step 1 (.ok 0), .step 1 (.ok 3),
    .step 1 (.ok 0)]

/-- The second truncates what the first has written and then renames, and a
`head` and a `getRange` come before it writes. -/
def torn : List (BlobLabel ℕ) :=
  together ++ [.step 0 (.ok 0), .step 0 (.ok 3), .step 1 (.ok 0), .step 0 (.ok 0),
    .call 2 (.head 7), .step 2 (.ok 0), .call 3 (.getRange 7 0 2), .step 3 (.ok 0),
    .step 3 (.ok 3)]

/-- Both `put`s of a body insert it, though nothing is deleted, or an object is
seen and served empty and then changes. -/
theorem shared_temp_file :
    ((∃ s, Run.exec blobStep (boot {}) twice = some s ∧
        s.tasks 0 = some (.returned (.put 7 [1, 2, 3]) (.put (.ok true))) ∧
        s.tasks 1 = some (.returned (.put 7 [1, 2, 3]) (.put (.ok true)))) ∧
      ∀ i, .call i (.delete 7) ∉ twice) ∧
    ∃ s t, Run.exec blobStep (boot {}) torn = some s ∧ blobStep s (.step 1 (.ok 3)) = some t ∧
      s.tasks 2 = some (.returned (.head 7) (.head (.ok (some 0)))) ∧
      s.tasks 3 = some (.returned (.getRange 7 0 2) (.range (some (.ok [])))) ∧
      s.disk.body 7 = some [] ∧ t.disk.body 7 = some [1, 2, 3] ∧
      ∀ i c, .call i c ∈ torn → c = .put 7 [1, 2, 3] ∨ c = .head 7 ∨ c = .getRange 7 0 2 := by
  have htwice : (Run.exec blobStep (boot {}) twice).map (fun s => (s.tasks 0, s.tasks 1)) =
      some (some (.returned (.put 7 [1, 2, 3]) (.put (.ok true))),
        some (.returned (.put 7 [1, 2, 3]) (.put (.ok true)))) := by decide
  have htorn : (do
      let s ← Run.exec blobStep (boot {}) torn
      let t ← blobStep s (.step 1 (.ok 3))
      some ((s.tasks 2, s.tasks 3), s.disk.body 7, t.disk.body 7)) =
      some ((some (.returned (.head 7) (.head (.ok (some 0)))),
        some (.returned (.getRange 7 0 2) (.range (some (.ok []))))), some [], some [1, 2, 3]) := by
    decide
  refine ⟨⟨?_, by simp [twice, together]⟩, ?_⟩
  · obtain ⟨s, hs, hend⟩ := Option.map_eq_some_iff.mp htwice
    obtain ⟨h0, h1⟩ := Prod.mk.inj hend
    exact ⟨s, hs, h0, h1⟩
  · obtain ⟨s, hs, htorn⟩ := Option.bind_eq_some_iff.mp htorn
    obtain ⟨t, ht, hend⟩ := Option.bind_eq_some_iff.mp htorn
    obtain ⟨hcalls, hbodies⟩ := Prod.mk.inj (Option.some.inj hend)
    obtain ⟨h2, h3⟩ := Prod.mk.inj hcalls
    obtain ⟨hbefore, hafter⟩ := Prod.mk.inj hbodies
    refine ⟨s, t, hs, ht, h2, h3, hbefore, hafter, fun i c hc => ?_⟩
    simp only [torn, together, List.mem_append, List.mem_cons, BlobLabel.call.injEq, reduceCtorEq,
      List.not_mem_nil, or_false, false_or] at hc
    rcases hc with (⟨_, rfl⟩ | ⟨_, rfl⟩) | ⟨_, rfl⟩ | ⟨_, rfl⟩
    · exact .inl rfl
    · exact .inl rfl
    · exact .inr (.inl rfl)
    · exact .inr (.inr rfl)

end Dejaveph.Proofs.PutOnce

