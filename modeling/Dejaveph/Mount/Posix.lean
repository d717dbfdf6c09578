import Dejaveph.Lib.Cells
import Dejaveph.Lib.Run
import Dejaveph.Mount.Xetfs

namespace Dejaveph.Mount
open Lib

/-- The reference that the mount is to be like: each file inode is a byte string. -/
abbrev Files := ℕ → Option Bytes

/-- What one request may do to the files of the reference, and reply. -/
inductive Posix (m : Files) : Request → Reply → Files → Prop
  | lookup (parent : ℕ) (name : String) (reply : Reply) : Posix m (.lookup parent name) reply m
  | getattr (ino : ℕ) (reply : Reply) : Posix m (.getattr ino) reply m
  | open_ (ino : ℕ) (b : Bytes) (file : m ino = some b) : Posix m (.open_ ino) .opened m
  | create (parent : ℕ) (name : String) (attr : FileAttr) (fresh : m attr.ino = none) :
      Posix m (.create parent name) (.created attr) (Function.update m attr.ino (some []))
  | read (ino fh : ℕ) (offset : ℤ) (size : ℕ) (b : Bytes) (file : m ino = some b) :
      Posix m (.read ino fh offset size) (.data (Cells.window b offset.toNat size)) m
  | write (ino fh : ℕ) (offset : ℤ) (data b : Bytes) (file : m ino = some b) :
      Posix m (.write ino fh offset data) (.written data.length)
        (Function.update m ino (some (Cells.overlay 0 b offset.toNat data)))
  | touch (ino : ℕ) (attr : FileAttr) (b : Bytes) (file : m ino = some b) :
      Posix m (.setattr ino none) (.attr attr) m
  | resize (ino size : ℕ) (attr : FileAttr) (b : Bytes) (file : m ino = some b) :
      Posix m (.setattr ino (some size)) (.attr attr)
        (Function.update m ino (some (Cells.truncate 0 b size)))
  | fsync (ino fh : ℕ) (b : Bytes) (file : m ino = some b) : Posix m (.fsync ino fh) .ok m
  | flush (ino fh : ℕ) (b : Bytes) (file : m ino = some b) : Posix m (.flush ino fh) .ok m
  | release (ino fh : ℕ) (b : Bytes) (file : m ino = some b) : Posix m (.release ino fh) .ok m

def Request.target : Request → Option ℕ
  | .getattr ino | .open_ ino | .read ino .. | .write ino .. | .setattr ino _ | .fsync ino _
  | .flush ino _ | .release ino _ | .readdir ino .. => some ino
  | .lookup .. | .create .. => none

def Request.flushed : Request → Option ℕ
  | .fsync ino _ | .flush ino _ | .release ino _ => some ino
  | _ => none

/-- Whether an inode has changes that no flush has followed, after one request more. -/
def pends (ino : ℕ) (p : Bool) : Request × Reply → Bool
  | (.create .., .created attr) => p || ino == attr.ino
  | (.write i .., _) | (.setattr i (some _), _) => p || ino == i
  | (.fsync i _, _) | (.flush i _, _) | (.release i _, _) => p && ino != i
  | _ => p

/-- Whether an inode has changes that no flush has followed. -/
def pending (ino : ℕ) (steps : List (Request × Reply)) : Bool := steps.foldl (pends ino) false

/-- A request leaves the bytes of every other inode alone. -/
theorem Posix.frame {m m' : Files} {r : Request} {reply : Reply} (h : Posix m r reply m') {j : ℕ}
    {b : Bytes} (hj : m j = some b) (hr : r.target ≠ some j) : m' j = some b := by
  cases h with
  | create parent name attr fresh =>
    have hne : j ≠ attr.ino := by
      rintro rfl
      rw [fresh] at hj
      cases hj
    rw [Function.update_of_ne hne, hj]
  | write ino fh offset data c file =>
    rw [Function.update_of_ne (fun he => hr (congrArg some he.symm)), hj]
  | resize ino size attr c file =>
    rw [Function.update_of_ne (fun he => hr (congrArg some he.symm)), hj]
  | _ => exact hj

theorem posix_runs_frame {m m' : Files} {rs : List Request} {replies : List Reply}
    (h : Run.Runs Posix m rs replies m') {j : ℕ} {b : Bytes} (hj : m j = some b)
    (hr : ∀ r ∈ rs, r.target ≠ some j) : m' j = some b := by
  induction h with
  | nil m => exact hj
  | cons head _ ih =>
    exact ih (head.frame hj (hr _ (by simp))) (fun r hm => hr r (by simp [hm]))

end Dejaveph.Mount
