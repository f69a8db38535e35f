import Vanguard.FileSystems
import Vanguard.LastWriterMaps
import Vanguard.TerminatedLines

/-! The storage engine of Chronos: an in-memory map and the log that rebuilds it. A `HashMap`
is a finite map; the order in which `compact` meets its entries is a parameter of the call. -/
namespace ChronosEngine

open Utf8Text FileSystems LastWriterMaps TerminatedLines

def DB_PATH : String := "chronos_v3.db"
def TEMP_PATH : String := "chronos_temp.db"

abbrev HashMap := Map Text Text

structure Engine where
  map : HashMap
  logFile : File

/-- The pieces that `writeln!(file, "{},{}", key, value)` hands to the file. -/
def recordFragments (key value : Text) : List Text := [key, [','], value, ['\n']]

def record (r : Text × Text) : Bytes := encode (recordFragments r.1 r.2).flatten

/-- `BufRead::lines` drops a final `\n` or `\r\n`, and nothing from a line without `\n`. -/
def stripTerminator (line : Text) : Text :=
  if line.getLast? = some '\n' then
    if line.dropLast.getLast? = some '\r' then line.dropLast.dropLast else line.dropLast
  else line

/-- One item of `BufRead::lines`; `none` is the error for bytes which are not UTF-8. -/
def readLine (piece : Bytes) : Option Text := (decode piece).map stripTerminator

def lines (data : Bytes) : List (Option Text) := (pieces 0x0A data).map readLine

def splitOnce (sep : Char) : Text → Option (Text × Text)
  | [] => none
  | c :: cs => if c = sep then some ([], cs) else (splitOnce sep cs).map fun p => (c :: p.1, p.2)

def replayLine (map : HashMap) (line : Option Text) : HashMap :=
  match line with
  | none => map
  | some text =>
    match splitOnce ',' text with
    | none => map
    | some (k, v) => map.insert k v

def replay (data : Bytes) : HashMap := (lines data).foldl replayLine ∅

def logOptions : OpenOptions := { create := true, append := true, truncate := false }
def tempOptions : OpenOptions := { create := true, append := false, truncate := true }

def Engine.new (fs : FileSystem) (filepath : String) (failure : Option IoError) :
    Except IoError Engine × FileSystem :=
  match fs.openFile filepath logOptions failure with
  | (.error err, fs) => (.error err, fs)
  | (.ok file, fs) => (.ok ⟨replay (fs.content file.inode), file⟩, fs)

/-- The map is updated before the log is written, and keeps the update when that fails. -/
def Engine.set (e : Engine) (fs : FileSystem) (key value : Text)
    (failure : Option (ℕ × IoError)) : Except IoError Unit × Engine × FileSystem :=
  let map := e.map.insert key value
  let (result, logFile, fs) := fs.writeAll e.logFile (record (key, value)) failure
  (result, ⟨map, logFile⟩, fs)

def Engine.get (e : Engine) (key : Text) : Option Text := e.map.lookup key

/-- The step of `compact` that fails. -/
inductive CompactFailure where
  | openTemp (err : IoError)
  | write (entry bytes : ℕ) (err : IoError)
  | sync (err : IoError)
  | rename (err : IoError)
  | reopen (err : IoError)
  deriving DecidableEq, Repr

def CompactFailure.error : CompactFailure → IoError
  | .openTemp err => err
  | .write _ _ err => err
  | .sync err => err
  | .rename err => err
  | .reopen err => err

def CompactFailure.atOpen : Option CompactFailure → Option IoError
  | some (.openTemp err) => some err
  | _ => none

def CompactFailure.atWrite (entry : ℕ) : Option CompactFailure → Option (ℕ × IoError)
  | some (.write i n err) => if i = entry then some (n, err) else none
  | _ => none

def CompactFailure.atSync : Option CompactFailure → Option IoError
  | some (.sync err) => some err
  | _ => none

def CompactFailure.atRename : Option CompactFailure → Option IoError
  | some (.rename err) => some err
  | _ => none

def CompactFailure.atReopen : Option CompactFailure → Option IoError
  | some (.reopen err) => some err
  | _ => none

theorem CompactFailure.eq_of_atWrite {failure : Option CompactFailure} {i n : ℕ} {err : IoError}
    (h : CompactFailure.atWrite i failure = some (n, err)) : failure = some (.write i n err) := by
  cases failure with
  | none => cases h
  | some f =>
    cases f with
    | write k m e =>
      simp only [CompactFailure.atWrite] at h
      split at h
      · next hk =>
        cases h
        rw [hk]
      · cases h
    | _ => cases h

theorem CompactFailure.error_of_at {failure : Option CompactFailure} {err : IoError}
    (h : CompactFailure.atOpen failure = some err ∨ CompactFailure.atSync failure = some err ∨
      CompactFailure.atRename failure = some err ∨ CompactFailure.atReopen failure = some err) :
    ∃ f, failure = some f ∧ f.error = err := by
  cases failure with
  | none => simp [atOpen, atSync, atRename, atReopen] at h
  | some f =>
    refine ⟨f, rfl, ?_⟩
    cases f with
    | write => simp [atOpen, atSync, atRename, atReopen] at h
    | _ => simpa [atOpen, atSync, atRename, atReopen, error] using h

/-- The loop of `compact`, from the entry with the given position on. -/
def writeEntries (fs : FileSystem) (file : File) (failure : Option CompactFailure) :
    ℕ → List (Text × Text) → Except IoError Unit × FileSystem
  | _, [] => (.ok (), fs)
  | i, r :: rs =>
    match fs.writeAll file (record r) (CompactFailure.atWrite i failure) with
    | (.error err, _, fs) => (.error err, fs)
    | (.ok (), file, fs) => writeEntries fs file failure (i + 1) rs

def Engine.compact (e : Engine) (fs : FileSystem) (t : Traversal Text Text)
    (failure : Option CompactFailure) : Except IoError Unit × Engine × FileSystem :=
  match fs.openFile TEMP_PATH tempOptions (CompactFailure.atOpen failure) with
  | (.error err, fs) => (.error err, e, fs)
  | (.ok temp, fs) =>
    match writeEntries fs temp failure 0 (t.order e.map) with
    | (.error err, fs) => (.error err, e, fs)
    | (.ok (), fs) =>
      match fs.syncAll (CompactFailure.atSync failure) with
      | (.error err, fs) => (.error err, e, fs)
      | (.ok (), fs) =>
        match fs.rename TEMP_PATH DB_PATH (CompactFailure.atRename failure) with
        | (.error err, fs) => (.error err, e, fs)
        | (.ok (), fs) =>
          match fs.openFile DB_PATH logOptions (CompactFailure.atReopen failure) with
          | (.error err, fs) => (.error err, e, fs)
          | (.ok file, fs) => (.ok (), { e with logFile := file }, fs)

end ChronosEngine
