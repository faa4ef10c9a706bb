import Mathlib.Data.List.AList
import Ume.Event.Event

/-! Memory-mapped files over one directory. A shared mapping is the file
itself, so a store through it changes the directory. Which of the three system
calls behind an open fails is left to the environment. -/

namespace Ume

open ByteString

/-- The contents of a regular file. Its length is a nonnegative `off_t`. -/
structure FileImage where
  bytes : List UInt8
  length_lt : bytes.length < 2 ^ 63

namespace FileImage

def empty : FileImage := ⟨[], by decide⟩

def resize (f : FileImage) (size : Nat) (h : size < 2 ^ 63) : FileImage :=
  ⟨f.bytes.takeD size 0, by simpa only [List.takeD_length] using h⟩

def store (f : FileImage) (off : Nat) (data : List UInt8) : Option FileImage :=
  if h : off + data.length ≤ f.bytes.length then
    some ⟨splice f.bytes off data, by rw [length_splice h]; exact f.length_lt⟩
  else none

end FileImage

/-- The system call that fails: `open`, then `ftruncate` or `fstat`, then `mmap`. -/
inductive OpenFault where
  | open | size | mmap
  deriving DecidableEq, Repr

structure DirEntry where
  file : FileImage
  isRegularFile : Bool := true
  readFault : Option OpenFault := none

abbrev Directory := AList (fun _ : String => DirEntry)

namespace MmapFile

/-- Creates the file if it is absent and sets its length. A length that is
negative as an `off_t` is refused by `ftruncate`, a zero length by `mmap`. -/
def openReadWrite (fault : Option OpenFault) (dir : Directory) (path : String)
    (initialSizeBytes : Nat) : Status × Directory :=
  if fault = some .open then (.kFileNotFound, dir)
  else
    let entry := (dir.lookup path).getD { file := FileImage.empty }
    if h : fault ≠ some .size ∧ initialSizeBytes < 2 ^ 63 then
      let dir := dir.insert path { entry with file := entry.file.resize initialSizeBytes h.2 }
      if fault = some .mmap ∨ initialSizeBytes = 0 then (.kOutOfMemory, dir) else (.kOk, dir)
    else (.kIoError, dir.insert path entry)

def openReadOnly (dir : Directory) (path : String) : Except Status (List UInt8) :=
  match dir.lookup path with
  | none => .error .kFileNotFound
  | some entry =>
    match entry.readFault with
    | some .open => .error .kFileNotFound
    | some .size => .error .kIoError
    | some .mmap => .error .kOutOfMemory
    | none => if entry.file.bytes = [] then .error .kOutOfMemory else .ok entry.file.bytes

/-- A copy into the mapping of `path`. It is undefined when nothing is mapped
or the copy leaves the mapping. -/
def store (dir : Directory) (mapped : Option String) (off : Nat) (data : List UInt8) :
    Option Directory := do
  let path ← mapped
  let entry ← dir.lookup path
  let file ← entry.file.store off data
  return dir.insert path { entry with file := file }

theorem openReadWrite_ok (dir : Directory) (path : String) {size : Nat} (hpos : 0 < size)
    (hsize : size < 2 ^ 63) :
    openReadWrite none dir path size = (.kOk, dir.insert path
      { (dir.lookup path).getD { file := FileImage.empty } with
        file := ((dir.lookup path).getD { file := FileImage.empty }).file.resize size hsize }) := by
  have hz : size ≠ 0 := by omega
  rw [openReadWrite, if_neg (by decide)]
  dsimp only
  rw [dif_pos ⟨by decide, hsize⟩, if_neg (by simp [hz])]

/-- A success says that no call failed and that the length is an `off_t`. -/
theorem openReadWrite_eq_ok {fault : Option OpenFault} {dir : Directory} {path : String}
    {size : Nat} (h : (openReadWrite fault dir path size).1 = .kOk) :
    fault = none ∧ 0 < size ∧ size < 2 ^ 63 := by
  unfold openReadWrite at h
  dsimp only at h
  split_ifs at h with h1 h2 h3
  refine ⟨?_, by omega, h2.2⟩
  cases fault with
  | none => rfl
  | some f =>
    cases f with
    | «open» => exact False.elim (h1 rfl)
    | size => exact False.elim (h2.1 rfl)
    | mmap => exact False.elim (h3 (.inl rfl))

theorem store_some {dir : Directory} {path : String} {entry : DirEntry} {off : Nat}
    {data : List UInt8} (hl : dir.lookup path = some entry)
    (h : off + data.length ≤ entry.file.bytes.length) :
    ∃ file : FileImage, file.bytes = splice entry.file.bytes off data ∧
      store dir (some path) off data = some (dir.insert path { entry with file := file }) := by
  refine ⟨⟨splice entry.file.bytes off data, ?_⟩, rfl, ?_⟩
  · rw [length_splice h]
    exact entry.file.length_lt
  · simp [store, hl, FileImage.store, h]

theorem store_eq_some {dir dir' : Directory} {mapped : Option String} {off : Nat}
    {data : List UInt8} (h : store dir mapped off data = some dir') :
    ∃ path entry, mapped = some path ∧ dir.lookup path = some entry ∧
      off + data.length ≤ entry.file.bytes.length := by
  obtain ⟨path, hm, h⟩ := Option.bind_eq_some_iff.mp h
  obtain ⟨entry, hl, h⟩ := Option.bind_eq_some_iff.mp h
  obtain ⟨file, hf, -⟩ := Option.bind_eq_some_iff.mp h
  refine ⟨path, entry, hm, hl, ?_⟩
  by_contra hlong
  rw [FileImage.store, dif_neg hlong] at hf
  cases hf

end MmapFile

end Ume
