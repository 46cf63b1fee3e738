/-
# The file object of `c/base/disk.c`

A `disk_t` holds a file name, an open mode and `handle_`, the stream of the file or
`NULL`.  Each function below is the function of the source; it returns, with its result,
the `stdio` calls it makes in their order.  What the C library answers is an argument:

* `fopen` : whether `fopen` succeeds; the stream it returns is a new one;
* `fclose`, `fseek` : the returned `int`;
* `ReadIo`, `WriteIo` : the answers to the calls of the `k`-th iteration of a loop.

`Session` is a `disk_t` together with the streams of the library, `step` one call of its
interface.
-/
import Pungoo.Stdio
import Pungoo.Run

namespace Disk

open Stdio

/-- `MAX_PATH_LEN`. -/
def maxPathLen : ℕ := 256

/-- `FILE_OPEN_MOD_WRITE`. -/
def fileOpenModWrite : ℤ := 0

/-- `FILE_OPEN_MOD_WRITE_APEND`. -/
def fileOpenModWriteApend : ℤ := 1

/-- `EINTR`. -/
def eintr : ℤ := 4

/-- `EAGAIN`. -/
def eagain : ℤ := 11

/-- `disk_t`.  The five function pointers always hold the functions below. -/
structure DiskT where
  filename_ : List UInt8
  handle_ : Option Stream
  flag_ : ℤ
  deriving DecidableEq, Repr

/-! ## Creation -/

/-- What `disk_t_create` does: return `NULL`, write through a null pointer, or return an
object. -/
inductive Created
  | null
  | crash
  | object (disk : DiskT)
  deriving DecidableEq, Repr

/-- `disk_t_create(filename, flag)`; the file name is the bytes before the terminator. -/
def diskTCreate (filename : Option (List UInt8)) (flag : ℤ) (malloc : Bool) : Created :=
  match filename with
  | none => .null
  | some filename =>
    if maxPathLen ≤ filename.length then .null
    else if malloc then
      .object { filename_ := filename.take (maxPathLen - 1), handle_ := none, flag_ := flag }
    -- the check of `malloc` does not return, and `memset` follows
    else .crash

theorem handle_of_create {filename : Option (List UInt8)} {flag : ℤ} {malloc : Bool}
    {disk : DiskT} (h : diskTCreate filename flag malloc = .object disk) :
    disk.handle_ = none := by
  unfold diskTCreate at h
  split at h
  · exact absurd h (by simp)
  · split_ifs at h
    exact Created.object.inj h ▸ rfl

/-! ## Opening and closing -/

/-- The mode `disk_t_file_open` opens the file with. -/
def DiskT.mode (disk : DiskT) : Mode :=
  if disk.flag_ = fileOpenModWrite then .wb
  else if disk.flag_ = fileOpenModWriteApend then .ab
  else .rb

/-- `disk_t_file_open(disk)`; `new` is the stream of a successful `fopen`. -/
def diskTFileOpen (fopen : Bool) (new : Stream) (disk : Option DiskT) :
    ℤ × Option DiskT × List Call :=
  match disk with
  | none => (-1, none, [])
  | some disk =>
    let handle := if fopen then some new else none
    (if handle = none then -1 else 0, some { disk with handle_ := handle },
      [.fopen disk.filename_ disk.mode handle])

/-- `disk_t_file_close(disk)`. -/
def diskTFileClose (fclose : ℤ) (disk : Option DiskT) : ℤ × Option DiskT × List Call :=
  match disk with
  | none => (-1, none, [])
  | some disk =>
    match disk.handle_ with
    | none => (-1, some disk, [])
    | some s =>
      -- the early return keeps `handle_` as it is
      if fclose ≠ 0 then (-1, some disk, [.fclose (some s) fclose])
      else (0, some { disk with handle_ := none }, [.fclose (some s) fclose])

/-- `disk_t_destroy(disk)`: the result and the calls; the object is freed. -/
def diskTDestroy (fclose : ℤ) (disk : Option DiskT) : ℤ × List Call :=
  match disk with
  | none => (0, [])
  | some disk => (0, (diskTFileClose fclose (some disk)).2.2)

/-! ## Reading -/

/-- The answers of the library to one `disk_t_file_read`, by iteration: the bytes `fread`
delivers (as many as were asked for at most), `ferror` and `feof`. -/
structure ReadIo where
  fread : ℕ → List UInt8
  ferror : ℕ → ℤ
  feof : ℕ → Bool

/-- `buf` after `bytes` were stored at `buf + pos`. -/
def store (buf : List UInt8) (pos : ℕ) (bytes : List UInt8) : List UInt8 :=
  buf.take pos ++ bytes ++ buf.drop (pos + bytes.length)

/-- The calls of one iteration: `feof` is asked in the condition, unless a conjunct before
it fails, and once more when no byte came. -/
def readCalls (handle : Option Stream) (count : ℕ) (data : List UInt8) (err : ℤ) (eof : Bool) :
    List Call :=
  [.fread handle count data, .ferror handle err]
    ++ (if data.length = 0 ∧ err ≠ eagain ∧ err ≠ eintr then [.feof handle eof] else [])
    ++ (if data.length = 0 ∧ (err = eagain ∨ err = eintr ∨ eof = true) then [.feof handle eof]
      else [])

/-- The loop of `disk_t_file_read` from the iteration `k` on: the result, the buffer and the
calls. -/
def readLoop (io : ReadIo) (handle : Option Stream) (len : ℤ) (k readLen retry : ℕ)
    (buf : List UInt8) : ℤ × List UInt8 × List Call :=
  if readLen < len then
    let count := (len - readLen).toNat
    let data := (io.fread k).take count
    let err := io.ferror k
    let eof := io.feof k
    let calls := readCalls handle count data err eof
    if data.length = 0 ∧ err ≠ eagain ∧ err ≠ eintr ∧ eof = false then
      (-1, buf, calls)
    else if data.length = 0 then
      if eof = true then (readLen, buf, calls)
      -- after a pause, the same bytes are asked for again
      else if retry + 1 < 6000 then
        let (ret, buf, rest) := readLoop io handle len (k + 1) readLen (retry + 1) buf
        (ret, buf, calls ++ rest)
      else (-1, buf, calls)
    else
      let (ret, buf, rest) :=
        readLoop io handle len (k + 1) (readLen + data.length) retry (store buf readLen data)
      (ret, buf, calls ++ rest)
  else (readLen, buf, [])
termination_by (len.toNat - readLen) + (6000 - retry)
decreasing_by
  · omega
  · show len.toNat - (readLen + data.length) + (6000 - retry) < _
    omega

/-- `disk_t_file_read(disk, buf, len)`: the result, the buffer and the calls. -/
def diskTFileRead (io : ReadIo) (disk : Option DiskT) (buf : List UInt8) (len : ℤ) :
    ℤ × List UInt8 × List Call :=
  match disk with
  | none => (-1, buf, [])
  | some disk => readLoop io disk.handle_ len 0 0 0 buf

/-! ## Writing -/

/-- The answers of the library to one `disk_t_file_write`, by iteration: the number of bytes
`fwrite` accepts (as many as were offered at most) and `ferror`. -/
structure WriteIo where
  fwrite : ℕ → ℕ
  ferror : ℕ → ℤ

/-- The calls of one iteration: `ferror` is asked once or twice in the condition, and once
more for the log. -/
def writeCalls (handle : Option Stream) (data : List UInt8) (n : ℕ) (err : ℤ) : List Call :=
  [.fwrite handle data n]
    ++ (if n = 0 then [.ferror handle err] else [])
    ++ (if n = 0 ∧ err ≠ eagain then [.ferror handle err] else [])
    ++ (if n = 0 ∧ err ≠ eagain ∧ err ≠ eintr then [.ferror handle err] else [])

/-- The loop of `disk_t_file_write` from the iteration `k` on: the result and the calls. -/
def writeLoop (io : WriteIo) (handle : Option Stream) (buf : List UInt8) (len : ℤ)
    (k writeLen retry : ℕ) : ℤ × List Call :=
  if writeLen < len then
    let count := (len - writeLen).toNat
    let n := min (io.fwrite k) count
    let err := io.ferror k
    let calls := writeCalls handle ((buf.drop writeLen).take count) n err
    -- a failure is reported as zero, also after some bytes were written
    if n = 0 ∧ err ≠ eagain ∧ err ≠ eintr then (0, calls)
    else if n = 0 then
      if retry + 1 < 6000 then
        let (ret, rest) := writeLoop io handle buf len (k + 1) writeLen (retry + 1)
        (ret, calls ++ rest)
      else (0, calls)
    else
      let (ret, rest) := writeLoop io handle buf len (k + 1) (writeLen + n) retry
      (ret, calls ++ rest)
  else (writeLen, [])
termination_by (len.toNat - writeLen) + (6000 - retry)

/-- `disk_t_file_write(disk, buf, len)`: the result and the calls. -/
def diskTFileWrite (io : WriteIo) (disk : Option DiskT) (buf : List UInt8) (len : ℤ) :
    ℤ × List Call :=
  match disk with
  | none => (-1, [])
  | some disk => writeLoop io disk.handle_ buf len 0 0 0

/-! ## Seeking -/

/-- `disk_t_file_seek(disk, offset)`: the result and the calls. -/
def diskTFileSeek (fseek : ℤ) (disk : Option DiskT) (offset : ℤ) : ℤ × List Call :=
  match disk with
  | none => (-1, [])
  | some disk => (if fseek = -1 then -1 else 0, [.fseek disk.handle_ offset fseek])

/-! ## Sessions -/

/-- An object and the streams that were opened through it. -/
structure Session where
  disk : Option DiskT
  streams : Streams

/-- A call of the interface with the answers of the library to it. -/
inductive Op
  | fileOpen (fopen : Bool)
  | fileClose (fclose : ℤ)
  | fileRead (io : ReadIo) (buf : List UInt8) (len : ℤ)
  | fileWrite (io : WriteIo) (buf : List UInt8) (len : ℤ)
  | fileSeek (fseek offset : ℤ)

/-- The result of a call and the `stdio` calls made in it. -/
structure Reply where
  ret : ℤ
  calls : List Call

/-- The object that `disk_t_create` returned. -/
def Session.start (disk : DiskT) : Session := ⟨some disk, .empty⟩

/-- The session after an operation with these results. -/
def Session.finish (s : Session) (r : ℤ × Option DiskT × List Call) : Reply × Session :=
  (⟨r.1, r.2.2⟩, ⟨r.2.1, s.streams.run r.2.2⟩)

/-- One call of the interface. -/
def step (s : Session) : Op → Reply × Session
  | .fileOpen fopen => s.finish (diskTFileOpen fopen s.streams.next s.disk)
  | .fileClose fclose => s.finish (diskTFileClose fclose s.disk)
  | .fileRead io buf len =>
    let r := diskTFileRead io s.disk buf len
    s.finish (r.1, s.disk, r.2.2)
  | .fileWrite io buf len =>
    let r := diskTFileWrite io s.disk buf len
    s.finish (r.1, s.disk, r.2)
  | .fileSeek fseek offset =>
    let r := diskTFileSeek fseek s.disk offset
    s.finish (r.1, s.disk, r.2)

end Disk
