import Vanguard.Utf8Text
import Mathlib.Logic.Function.Basic

/-! The files a process sees: paths name inodes, inodes hold bytes, and a handle keeps its
inode when the path is given to another one. Each call may be made to fail; a failed write has
left only a proper prefix of its bytes. -/
namespace FileSystems

open Utf8Text (Bytes Text)

/-- `display` is the text that formatting the error gives. -/
structure IoError where
  display : Text
  deriving DecidableEq, Repr

/-- There are no hard links, and inodes from `fresh` on were never used. -/
structure FileSystem where
  directory : String → Option ℕ
  content : ℕ → Bytes
  fresh : ℕ
  allocated : ∀ p i, directory p = some i → i < fresh
  single : ∀ p q i, directory p = some i → directory q = some i → p = q

def emptyFileSystem : FileSystem := ⟨fun _ => none, fun _ => [], 0, nofun, nofun⟩

structure File where
  inode : ℕ
  append : Bool
  pos : ℕ
  deriving DecidableEq, Repr

structure OpenOptions where
  create : Bool
  append : Bool
  truncate : Bool

/-- The bytes at a path. A path that names nothing reads as empty. -/
def FileSystem.read (fs : FileSystem) (path : String) : Bytes :=
  ((fs.directory path).map fs.content).getD []

def FileSystem.setContent (fs : FileSystem) (i : ℕ) (data : Bytes) : FileSystem :=
  { fs with content := Function.update fs.content i data }

def FileSystem.create (fs : FileSystem) (path : String) : FileSystem where
  directory := Function.update fs.directory path (some fs.fresh)
  content := Function.update fs.content fs.fresh []
  fresh := fs.fresh + 1
  allocated := by
    intro p i h
    by_cases hp : p = path
    · subst hp
      simp at h
      omega
    · rw [Function.update_of_ne hp] at h
      exact Nat.lt_succ_of_lt (fs.allocated p i h)
  single := by
    intro p q i hp hq
    by_cases h : p = path <;> by_cases h' : q = path
    · rw [h, h']
    · subst h
      rw [Function.update_self] at hp
      rw [Function.update_of_ne h'] at hq
      have := fs.allocated q i hq
      cases hp
      omega
    · subst h'
      rw [Function.update_self] at hq
      rw [Function.update_of_ne h] at hp
      have := fs.allocated p i hp
      cases hq
      omega
    · rw [Function.update_of_ne h] at hp
      rw [Function.update_of_ne h'] at hq
      exact fs.single p q i hp hq

def notFound : IoError := ⟨"No such file or directory (os error 2)".toList⟩

def FileSystem.openFile (fs : FileSystem) (path : String) (opts : OpenOptions)
    (failure : Option IoError) : Except IoError File × FileSystem :=
  match failure with
  | some err => (.error err, fs)
  | none =>
    match fs.directory path with
    | some i => (.ok ⟨i, opts.append, 0⟩, if opts.truncate then fs.setContent i [] else fs)
    | none =>
      if opts.create then (.ok ⟨fs.fresh, opts.append, 0⟩, fs.create path)
      else (.error notFound, fs)

/-- Where the bytes of one `write` go. -/
def FileSystem.put (fs : FileSystem) (f : File) (data : Bytes) : FileSystem :=
  let old := fs.content f.inode
  fs.setContent f.inode
    (if f.append then old ++ data else old.take f.pos ++ data ++ old.drop (f.pos + data.length))

/-- `write_all`. A failure names the number of bytes that got through before it. -/
def FileSystem.writeAll (fs : FileSystem) (f : File) (data : Bytes)
    (failure : Option (ℕ × IoError)) : Except IoError Unit × File × FileSystem :=
  match failure with
  | some (n, err) =>
    if n < data.length then
      (.error err, { f with pos := f.pos + n }, fs.put f (data.take n))
    else (.ok (), { f with pos := f.pos + data.length }, fs.put f data)
  | none => (.ok (), { f with pos := f.pos + data.length }, fs.put f data)

/-- Replaces what the target path named, in one step. -/
def FileSystem.moveEntry (fs : FileSystem) (i : ℕ) (source target : String)
    (h : fs.directory source = some i) : FileSystem where
  directory p := if p = target then some i else if p = source then none else fs.directory p
  content := fs.content
  fresh := fs.fresh
  allocated := by
    intro p j hp
    split_ifs at hp
    · cases hp
      exact fs.allocated source i h
    · exact fs.allocated p j hp
  single := by
    intro p q j hp hq
    split_ifs at hp hq with h1 h2 h3 h4 h5
    · rw [h1, h2]
    · cases hp
      exact absurd (fs.single q source i hq h) h3
    · cases hq
      exact absurd (fs.single p source i hp h) h4
    · exact fs.single p q j hp hq

def FileSystem.rename (fs : FileSystem) (source target : String) (failure : Option IoError) :
    Except IoError Unit × FileSystem :=
  match failure with
  | some err => (.error err, fs)
  | none =>
    match h : fs.directory source with
    | none => (.error notFound, fs)
    | some i => (.ok (), fs.moveEntry i source target h)

def FileSystem.removeEntry (fs : FileSystem) (path : String) : FileSystem where
  directory := Function.update fs.directory path none
  content := fs.content
  fresh := fs.fresh
  allocated := by
    intro p i h
    by_cases hp : p = path
    · subst hp
      simp at h
    · rw [Function.update_of_ne hp] at h
      exact fs.allocated p i h
  single := by
    intro p q i hp hq
    by_cases h : p = path
    · subst h
      simp at hp
    by_cases h' : q = path
    · subst h'
      simp at hq
    rw [Function.update_of_ne h] at hp
    rw [Function.update_of_ne h'] at hq
    exact fs.single p q i hp hq

def FileSystem.removeFile (fs : FileSystem) (path : String) (failure : Option IoError) :
    Except IoError Unit × FileSystem :=
  match failure with
  | some err => (.error err, fs)
  | none =>
    match fs.directory path with
    | none => (.error notFound, fs)
    | some _ => (.ok (), fs.removeEntry path)

/-- `sync_all` changes nothing that the process can read. -/
def FileSystem.syncAll (fs : FileSystem) (failure : Option IoError) :
    Except IoError Unit × FileSystem :=
  match failure with
  | some err => (.error err, fs)
  | none => (.ok (), fs)

variable {fs : FileSystem} {f : File} {data : Bytes} {path : String} {i : ℕ}

@[simp] theorem directory_setContent (j : ℕ) :
    (fs.setContent j data).directory = fs.directory := rfl
@[simp] theorem content_setContent (j : ℕ) :
    (fs.setContent j data).content = Function.update fs.content j data := rfl
@[simp] theorem directory_put : (fs.put f data).directory = fs.directory := rfl
@[simp] theorem fresh_put : (fs.put f data).fresh = fs.fresh := rfl

theorem content_put_append (h : f.append = true) :
    (fs.put f data).content f.inode = fs.content f.inode ++ data := by
  simp [FileSystem.put, h]

theorem content_put_end (h : f.pos = (fs.content f.inode).length) :
    (fs.put f data).content f.inode = fs.content f.inode ++ data := by
  simp [FileSystem.put, h]

theorem content_put_of_ne (h : i ≠ f.inode) : (fs.put f data).content i = fs.content i := by
  simp [FileSystem.put, Function.update_of_ne h]

theorem read_of_directory (h : fs.directory path = some i) : fs.read path = fs.content i := by
  simp [FileSystem.read, h]

theorem setContent_setContent (j : ℕ) (a b : Bytes) :
    (fs.setContent j a).setContent j b = fs.setContent j b := by
  simp only [FileSystem.setContent, Function.update_idem]

theorem put_nil : fs.put f [] = fs := by
  have hsame : (if f.append then fs.content f.inode ++ [] else
      (fs.content f.inode).take f.pos ++ [] ++ (fs.content f.inode).drop (f.pos + 0)) =
      fs.content f.inode := by simp
  rw [FileSystem.put, List.length_nil]
  simp only [hsame, FileSystem.setContent, Function.update_eq_self]

def FileSystem.AtEnd (fs : FileSystem) (f : File) : Prop :=
  f.append = true ∨ f.pos = (fs.content f.inode).length

theorem put_atEnd (h : fs.AtEnd f) (data : Bytes) :
    fs.put f data = fs.setContent f.inode (fs.content f.inode ++ data) := by
  rw [FileSystem.put]
  rcases h with h | h
  · simp [h]
  · simp [h, List.drop_eq_nil_of_le]

theorem put_put (h : fs.AtEnd f) (a b : Bytes) :
    (fs.put f a).put { f with pos := f.pos + a.length } b = fs.put f (a ++ b) := by
  have hcontent : (fs.put f a).content f.inode = fs.content f.inode ++ a := by
    rw [put_atEnd h, content_setContent, Function.update_self]
  have hend : (fs.put f a).AtEnd { f with pos := f.pos + a.length } := by
    rcases h with h | h
    · exact Or.inl h
    · right
      simp only [hcontent, List.length_append, h]
  rw [put_atEnd hend]
  simp only [hcontent]
  rw [put_atEnd h, put_atEnd h, setContent_setContent, List.append_assoc]

theorem read_congr {fs' : FileSystem} (hd : fs'.directory path = fs.directory path)
    (hc : ∀ i, fs.directory path = some i → fs'.content i = fs.content i) :
    fs'.read path = fs.read path := by
  rw [FileSystem.read, FileSystem.read, hd]
  cases hi : fs.directory path with
  | none => rfl
  | some i => exact hc i hi

theorem read_put_of_ne (h : fs.directory path ≠ some f.inode) :
    (fs.put f data).read path = fs.read path := by
  have hd : (fs.put f data).directory path = fs.directory path := rfl
  apply read_congr hd
  intro i hi
  apply content_put_of_ne
  intro he
  exact h (by rw [hi, he])

theorem read_put_append (h : fs.directory path = some f.inode) (happend : f.append = true) :
    (fs.put f data).read path = fs.read path ++ data := by
  have hd : (fs.put f data).directory path = some f.inode := h
  rw [read_of_directory hd, read_of_directory h, content_put_append happend]

theorem writeAll_none :
    fs.writeAll f data none = (.ok (), { f with pos := f.pos + data.length }, fs.put f data) := rfl

/-- A write does all that it should, or fails after a proper prefix of its bytes. -/
theorem writeAll_cases (fs : FileSystem) (f : File) (data : Bytes)
    (failure : Option (ℕ × IoError)) :
    fs.writeAll f data failure = fs.writeAll f data none ∨
      ∃ n err, failure = some (n, err) ∧ n < data.length ∧
        fs.writeAll f data failure =
          (.error err, { f with pos := f.pos + n }, fs.put f (data.take n)) := by
  cases failure with
  | none => exact Or.inl rfl
  | some cut =>
    obtain ⟨n, err⟩ := cut
    by_cases hn : n < data.length
    · exact Or.inr ⟨n, err, rfl, hn, by simp only [FileSystem.writeAll, if_pos hn]⟩
    · exact Or.inl (by simp only [FileSystem.writeAll, if_neg hn])

theorem openFile_create (fs : FileSystem) (path : String) (opts : OpenOptions)
    (h : opts.create = true) :
    ∃ j fs', fs.openFile path opts none = (.ok ⟨j, opts.append, 0⟩, fs') ∧
      fs'.directory path = some j ∧
      fs'.content j = (if opts.truncate then [] else fs.read path) ∧
      (∀ q, q ≠ path → fs'.directory q = fs.directory q) ∧
      (∀ q i, q ≠ path → fs.directory q = some i → fs'.content i = fs.content i) := by
  cases hd : fs.directory path with
  | some j =>
    have hother : ∀ q i, q ≠ path → fs.directory q = some i → i ≠ j := by
      intro q i hq hi he
      subst he
      exact hq (fs.single q path i hi hd)
    by_cases ht : opts.truncate = true
    · refine ⟨j, fs.setContent j [], by simp [FileSystem.openFile, hd, ht], hd, by simp [ht],
        fun _ _ => rfl, fun q i hq hi => ?_⟩
      rw [content_setContent, Function.update_of_ne (hother q i hq hi)]
    · exact ⟨j, fs, by simp [FileSystem.openFile, hd, ht], hd,
        by simp [ht, read_of_directory hd], fun _ _ => rfl, fun _ _ _ _ => rfl⟩
  | none =>
    refine ⟨fs.fresh, fs.create path, by simp [FileSystem.openFile, hd, h], ?_, ?_, ?_, ?_⟩
    · simp [FileSystem.create]
    · simp [FileSystem.create, FileSystem.read, hd]
    · intro q hq
      simp [FileSystem.create, Function.update_of_ne hq]
    · intro q i hq hi
      have hlt := fs.allocated q i hi
      simp [FileSystem.create, Function.update_of_ne (Nat.ne_of_lt hlt)]

theorem openFile_error {opts : OpenOptions} {failure : Option IoError} {err : IoError}
    {fs' : FileSystem} (h : fs.openFile path opts failure = (.error err, fs')) :
    failure = some err ∨ err = notFound := by
  cases failure with
  | some e =>
    cases h
    exact Or.inl rfl
  | none =>
    right
    simp only [FileSystem.openFile] at h
    split at h
    · cases h
    · split at h
      · cases h
      · cases h
        rfl

theorem rename_error {source target : String} {failure : Option IoError} {err : IoError}
    {fs' : FileSystem} (h : fs.rename source target failure = (.error err, fs')) :
    failure = some err ∨ err = notFound := by
  cases failure with
  | some e =>
    cases h
    exact Or.inl rfl
  | none =>
    right
    simp only [FileSystem.rename] at h
    split at h
    · cases h
      rfl
    · cases h

theorem syncAll_error {failure : Option IoError} {err : IoError} {fs' : FileSystem}
    (h : fs.syncAll failure = (.error err, fs')) : failure = some err := by
  cases failure with
  | some e =>
    cases h
    rfl
  | none => cases h

theorem writeAll_error {failure : Option (ℕ × IoError)} {err : IoError} {f' : File}
    {fs' : FileSystem} (h : fs.writeAll f data failure = (.error err, f', fs')) :
    ∃ n, failure = some (n, err) := by
  rcases writeAll_cases fs f data failure with hall | ⟨n, e, hfailure, _, hcut⟩
  · rw [hall, writeAll_none] at h
    cases h
  · rw [hcut] at h
    cases h
    exact ⟨n, hfailure⟩

theorem openFile_inode {opts : OpenOptions} {fs' : FileSystem}
    (h : fs.openFile path opts none = (.ok f, fs')) :
    fs.directory path = some f.inode ∨ f.inode = fs.fresh := by
  cases hd : fs.directory path with
  | some j =>
    simp only [FileSystem.openFile, hd] at h
    cases h
    exact Or.inl rfl
  | none =>
    simp only [FileSystem.openFile, hd] at h
    split at h
    · cases h
      exact Or.inr rfl
    · cases h

theorem rename_exists {source : String} (target : String) (h : fs.directory source = some i) :
    ∃ fs', fs.rename source target none = (.ok (), fs') ∧ fs'.directory target = some i ∧
      fs'.content = fs.content ∧
      ∀ q, q ≠ source → q ≠ target → fs'.directory q = fs.directory q := by
  refine ⟨fs.moveEntry i source target h, ?_, ?_, rfl, ?_⟩
  · simp only [FileSystem.rename]
    split
    · next hn => rw [h] at hn; cases hn
    · next j hj =>
      rw [h] at hj
      cases hj
      rfl
  · simp [FileSystem.moveEntry]
  · intro q hs ht
    simp [FileSystem.moveEntry, hs, ht]

end FileSystems
