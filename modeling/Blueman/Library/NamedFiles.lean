import Mathlib.Data.List.Nodup
import Mathlib.Logic.Function.Basic

/-!
# Files under their names

A directory as a function from names to contents. A write replaces what is under
its name. A list of writes to different names leaves each of them as it was
written, and every other name as it was.
-/

namespace Blueman.NamedFiles

set_option autoImplicit false

universe u v

variable {Name : Type u} {File : Type v} [DecidableEq Name]

def put (files : Name → Option File) (name : Name) (file : File) : Name → Option File :=
  Function.update files name (some file)

def putAll (files : Name → Option File) (writes : List (Name × File)) : Name → Option File :=
  writes.foldl (fun held write => put held write.1 write.2) files

theorem put_all_append (files : Name → Option File) (front back : List (Name × File)) :
    putAll files (front ++ back) = putAll (putAll files front) back := by
  rw [putAll, putAll, putAll, List.foldl_append]

theorem put_all_other {files : Name → Option File} {writes : List (Name × File)} {name : Name}
    (unwritten : name ∉ writes.map Prod.fst) : putAll files writes name = files name := by
  induction writes generalizing files with
  | nil => rfl
  | cons write rest induction =>
      have outside : name ≠ write.1 ∧ name ∉ rest.map Prod.fst := by simpa using unwritten
      change putAll (put files write.1 write.2) rest name = _
      rw [induction outside.2, put, Function.update_of_ne outside.1]

theorem put_all_held {files : Name → Option File} {writes : List (Name × File)}
    (different : (writes.map Prod.fst).Nodup) {write : Name × File} (member : write ∈ writes) :
    putAll files writes write.1 = some write.2 := by
  induction writes generalizing files with
  | nil => cases member
  | cons first rest induction =>
      rw [List.map_cons, List.nodup_cons] at different
      change putAll (put files first.1 first.2) rest write.1 = _
      rcases List.mem_cons.mp member with rfl | later
      · rw [put_all_other different.1, put, Function.update_self]
      · exact induction different.2 later

end Blueman.NamedFiles
