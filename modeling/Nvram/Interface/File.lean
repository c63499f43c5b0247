import Nvram.Interface.Sys

/-!
# The file interface

`nvram_interface_file.c`: a section is the file at a path, a regular file or a block device.
-/

namespace Nvram

open Effects Errno

/-- `file_init` on a handle that does not exist yet. -/
def fileInit : SysProg (Except Errno PrivData) := do
  match ← Sys.mallocStruct with
  | none => return .error enomem
  | some addr => return .ok ⟨addr, none, none⟩

def fileSize (path : CString) : SysProg (Except Errno ℕ) := do
  match ← Sys.stat path with
  | .error e =>
    if e = enoent then
      return .ok 0
    else
      return .error e
  | .ok ⟨.reg, size⟩ =>
    Sys.prDbg "%s: regular file\n" [.str path]
    return .ok size
  | .ok ⟨.blk, _⟩ =>
    Sys.prDbg "%s: blockdev\n" [.str path]
    match ← Sys.openFile path .rdonly with
    | .error e => return .error e
    | .ok fd =>
      let r ← Sys.blkGetSize64 fd
      Sys.close fd
      match r with
      | .error e => return .error e
      | .ok bytes =>
        if SIZE_MAX < bytes.toNat then
          return .error enomem
        else
          return .ok bytes.toNat
  | .ok ⟨.other, _⟩ =>
    Sys.prDbg "unsupported file format\n" []
    return .error eopnotsupp

def fileRead (path : CString) (size : ℕ) :
    SysProg (Except Errno {buf : Bytes // buf.length = size}) := do
  match ← Sys.openFile path .rdonly with
  | .error e => return .error e
  | .ok fd =>
    let r ← Sys.read fd size
    Sys.close fd
    match r with
    | .error e => return .error e
    | .ok buf => return if h : buf.val.length = size then .ok ⟨buf.val, h⟩ else .error eio

def fileWrite (path : CString) (buf : Bytes) : SysProg (Except Errno Unit) := do
  match ← Sys.openFile path .wronlyCreatTrunc with
  | .error e => return .error e
  | .ok fd =>
    let r ← Sys.write fd buf
    Sys.close fd
    match r with
    | .error e => return .error e
    | .ok bytes => return if bytes.val ≠ buf.length then .error eio else .ok ()

/-! ### Regular files -/

/-- A file system of regular files: what each path is bound to, and for each open
descriptor its file and offset.  Memory is there, at increasing addresses. -/
structure FileSystem where
  files : CString → Option Bytes
  fds : Fd → Option (CString × ℕ)
  nextFd : Fd
  nextAddr : ℕ

namespace FileSystem

/-- The bytes at a path; a missing file has none. -/
def content (fs : FileSystem) (path : CString) : Bytes := (fs.files path).getD []

/-- Bind `path` to `bytes`. -/
def bindFile (fs : FileSystem) (path : CString) (bytes : Bytes) : FileSystem :=
  { fs with files := Function.update fs.files path (some bytes) }

def openAt (fs : FileSystem) (path : CString) : FileSystem :=
  { fs with fds := Function.update fs.fds fs.nextFd (some (path, 0)), nextFd := fs.nextFd + 1 }

def advance (fs : FileSystem) (fd : Fd) (path : CString) (offset : ℕ) : FileSystem :=
  { fs with fds := Function.update fs.fds fd (some (path, offset)) }

end FileSystem

/-- Reads end at the end of the file, writes are complete. -/
def fileSystem : Handler sysSig FileSystem
  | .mallocStruct, fs => (some fs.nextAddr, { fs with nextAddr := fs.nextAddr + 1 })
  | .malloc n, fs => (some (zeros n), fs)
  | .printDebug _ _, fs => ((), fs)
  | .stat path, fs =>
    match fs.files path with
    | none => (.error enoent, fs)
    | some bytes => (.ok ⟨.reg, bytes.length⟩, fs)
  | .openFile path .rdonly, fs | .openFile path .wronly, fs =>
    match fs.files path with
    | none => (.error enoent, fs)
    | some _ => (.ok fs.nextFd, fs.openAt path)
  | .openFile path .wronlyCreat, fs =>
    (.ok fs.nextFd, (fs.bindFile path (fs.content path)).openAt path)
  | .openFile path .wronlyCreatTrunc, fs => (.ok fs.nextFd, (fs.bindFile path []).openAt path)
  | .blkGetSize64 _, fs => (.error einval, fs)
  | .memErase _ _ _, fs => (.error einval, fs)
  | .read fd n, fs =>
    match fs.fds fd with
    | none => (.error ebadf, fs)
    | some (path, offset) =>
      let buf := ((fs.content path).drop offset).take n
      (.ok ⟨buf, List.length_take_le _ _⟩, fs.advance fd path (offset + buf.length))
  | .write fd buf, fs =>
    match fs.fds fd with
    | none => (.error ebadf, fs)
    | some (path, offset) =>
      let old := fs.content path
      let new := old.take offset ++ buf ++ old.drop (offset + buf.length)
      (.ok (allWritten buf), (fs.bindFile path new).advance fd path (offset + buf.length))
  | .close fd, fs => ((), { fs with fds := Function.update fs.fds fd none })
  | .closeUnopened, fs => ((), fs)
  | .errno, fs => (0, fs)
  | .fgetflags path, fs => (if fs.files path = none then .error enoent else .ok 0, fs)
  | .fsetflags _ _, fs => (.error eopnotsupp, fs)
  | .libmtdOpen, fs => (.error 0, fs)
  | .mtdGetInfo, fs => (.error 0, fs)
  | .mtdGetDevInfo1 _, fs => (.error 0, fs)
  | .libmtdClose, fs => ((), fs)

section

variable (fs : FileSystem) (path : CString)

theorem run_fileSize :
    run fileSystem (fileSize path) fs = (.ok (fs.content path).length, fs) := by
  cases h : fs.files path with
  | none => simp [fileSize, fileSystem, h, FileSystem.content]
  | some bytes => simp [fileSize, fileSystem, h, FileSystem.content]

theorem run_fileRead (n : ℕ) :
    run fileSystem (fileRead path n) fs =
      match fs.files path with
      | none => (.error enoent, fs)
      | some bytes =>
        (if h : (bytes.take n).length = n then .ok ⟨bytes.take n, h⟩ else .error eio,
          { fs with fds := Function.update fs.fds fs.nextFd none, nextFd := fs.nextFd + 1 }) := by
  cases h : fs.files path with
  | none => simp [fileRead, fileSystem, h]
  | some bytes =>
      simp [fileRead, fileSystem, h, FileSystem.openAt, FileSystem.advance, FileSystem.content]

theorem run_fileRead_files (n : ℕ) :
    (run fileSystem (fileRead path n) fs).2.files = fs.files := by
  rw [run_fileRead]
  cases fs.files path with
  | none => rfl
  | some bytes => rfl

/-- A read within a file gives its first bytes. -/
theorem run_fileRead_of_le {n : ℕ} (hn : n ≤ (fs.content path).length)
    (hne : fs.content path ≠ []) :
    ∃ buf, (run fileSystem (fileRead path n) fs).1 = .ok buf ∧
      buf.val = (fs.content path).take n := by
  rw [run_fileRead]
  unfold FileSystem.content at hn hne ⊢
  cases h : fs.files path with
  | none =>
      rw [h] at hne
      exact absurd rfl hne
  | some bytes =>
      rw [h, Option.getD_some] at hn
      have hlength : (bytes.take n).length = n := List.length_take_of_le hn
      exact ⟨⟨bytes.take n, hlength⟩, dif_pos hlength, rfl⟩

/-- A read past the end is short. -/
theorem run_fileRead_of_lt {n : ℕ} (hn : (fs.content path).length < n) :
    ∃ e, (run fileSystem (fileRead path n) fs).1 = .error e := by
  rw [run_fileRead]
  unfold FileSystem.content at hn
  cases h : fs.files path with
  | none => exact ⟨enoent, rfl⟩
  | some bytes =>
      rw [h, Option.getD_some] at hn
      have hshort : ¬ (bytes.take n).length = n := by
        rw [List.length_take]
        omega
      exact ⟨eio, dif_neg hshort⟩

/-- A write replaces the file. -/
theorem run_fileWrite (buf : Bytes) :
    run fileSystem (fileWrite path buf) fs =
      (.ok (), { fs with files := Function.update fs.files path (some buf),
                         fds := Function.update fs.fds fs.nextFd none,
                         nextFd := fs.nextFd + 1 }) := by
  simp [fileWrite, fileSystem, FileSystem.openAt, FileSystem.advance, FileSystem.content,
    FileSystem.bindFile]

end

end Nvram
