import Mathlib.Data.List.Basic

/-!
# A file that is written from its start again

A file behind a descriptor: what it holds, and where the next write goes. A write
puts its bytes over what is there. So a file that was rewound, but not cut, holds
what has been written since, and behind it the rest of what it held before.
-/

namespace Blueman.RewoundFile

set_option autoImplicit false

universe u

variable {Byte : Type u}

structure OpenFile (Byte : Type u) where
  content : List Byte
  offset : Nat
  inside : offset ≤ content.length

def OpenFile.truncated : OpenFile Byte := ⟨[], 0, Nat.le_refl 0⟩

def OpenFile.rewind (file : OpenFile Byte) : OpenFile Byte := ⟨file.content, 0, Nat.zero_le _⟩

/-- The bytes over the first ones of `old`. -/
def overlay (written old : List Byte) : List Byte := written ++ old.drop written.length

@[simp] theorem overlay_nil (old : List Byte) : overlay [] old = old := rfl

theorem overlay_length (written old : List Byte) :
    (overlay written old).length = max written.length old.length := by
  rw [overlay, List.length_append, List.length_drop]
  omega

theorem overlay_of_le {written old : List Byte} (short : old.length ≤ written.length) :
    overlay written old = written := by
  rw [overlay, List.drop_of_length_le short, List.append_nil]

/-- An overlay laid over something shows the bytes alone exactly when neither of the
two below is longer. -/
theorem overlay_overlay_eq_iff (written old older : List Byte) :
    overlay (overlay written old) older = written ↔
      old.length ≤ written.length ∧ older.length ≤ written.length := by
  constructor
  · intro same
    have length := overlay_length (overlay written old) older
    rw [same, overlay_length] at length
    omega
  · rintro ⟨short, shorter⟩
    rw [overlay_of_le short, overlay_of_le shorter]

theorem overlay_append (front back old : List Byte) :
    overlay (front ++ back) old = front ++ overlay back (old.drop front.length) := by
  rw [overlay, overlay, List.drop_drop, List.length_append, List.append_assoc]

def OpenFile.write (bytes : List Byte) (file : OpenFile Byte) : OpenFile Byte where
  content := file.content.take file.offset ++ overlay bytes (file.content.drop file.offset)
  offset := file.offset + bytes.length
  inside := by
    have inside := file.inside
    rw [List.length_append, List.length_take, overlay_length]
    omega

@[simp] theorem write_content (bytes : List Byte) (file : OpenFile Byte) :
    (file.write bytes).content =
      file.content.take file.offset ++ overlay bytes (file.content.drop file.offset) := rfl

@[simp] theorem write_offset (bytes : List Byte) (file : OpenFile Byte) :
    (file.write bytes).offset = file.offset + bytes.length := rfl

/-- What has been written to the file since it was rewound, and what it held
before. -/
structure Rewritten (written old : List Byte) (file : OpenFile Byte) : Prop where
  content : file.content = overlay written old
  offset : file.offset = written.length

theorem rewind_rewritten (file : OpenFile Byte) : Rewritten [] file.content file.rewind :=
  ⟨rfl, rfl⟩

theorem Rewritten.write {written old : List Byte} {file : OpenFile Byte}
    (holds : Rewritten written old file) (bytes : List Byte) :
    Rewritten (written ++ bytes) old (file.write bytes) := by
  constructor
  · rw [write_content, holds.content, holds.offset, overlay_append, overlay, List.take_left,
      List.drop_left]
  · rw [write_offset, holds.offset, List.length_append]

end Blueman.RewoundFile
