import Vanguard.FileSystems
import Vanguard.LastWriterMaps
import Vanguard.LittleEndian
import Vanguard.VersionHistories

/-! The time-travel store of `mvp_check`: entries are appended to one file, and an index keeps for
each key the times and the offsets of its entries. The two functions of `bincode` are parameters. -/
namespace ChronosTimeTravel

open Utf8Text FileSystems LastWriterMaps VersionHistories

structure Entry where
  key : Text
  value : Text
  timestamp : UInt64
  deriving DecidableEq, Repr

structure ChronosDB where
  path : String
  index : Map Text (List (UInt64 × ℕ))

/-- The call in `set` that fails. What was buffered may have reached the file in part or whole,
when the writer is dropped at the latest. -/
inductive SetFailure where
  | openFile (err : IoError)
  | seek (err : IoError)
  | serialize (bytes : ℕ) (message : Text)
  | flush (bytes : ℕ) (err : IoError)

def SetFailure.atOpen : Option SetFailure → Option IoError
  | some (.openFile err) => some err
  | _ => none

def SetFailure.atSeek : Option SetFailure → Option IoError
  | some (.seek err) => some err
  | _ => none

def SetFailure.atWrite : Option SetFailure → Option (ℕ × Text)
  | some (.serialize bytes message) => some (bytes, message)
  | some (.flush bytes err) => some (bytes, err.display)
  | _ => none

def setOptions : OpenOptions := { create := true, append := true, truncate := false }
def readOptions : OpenOptions := { create := false, append := false, truncate := false }

/-- A store starts without the file of an earlier one. -/
def ChronosDB.new (fs : FileSystem) (path : String) (failure : Option IoError) :
    Except Text ChronosDB × FileSystem :=
  if (fs.directory path).isSome then
    match fs.removeFile path failure with
    | (.error err, fs) => (.error err.display, fs)
    | (.ok (), fs) => (.ok ⟨path, ∅⟩, fs)
  else (.ok ⟨path, ∅⟩, fs)

section Bincode

variable (serialize : Entry → Bytes) (deserialize : Bytes → Except Text Entry)

def ChronosDB.set (db : ChronosDB) (fs : FileSystem) (key value : Text) (now : UInt64)
    (failure : Option SetFailure) : Except Text UInt64 × ChronosDB × FileSystem :=
  match fs.openFile db.path setOptions (SetFailure.atOpen failure) with
  | (.error err, fs) => (.error err.display, db, fs)
  | (.ok file, fs) =>
    match SetFailure.atSeek failure with
    | some err => (.error err.display, db, fs)
    | none =>
      let currentOffset := (fs.content file.inode).length
      let entry := serialize ⟨key, value, now⟩
      match SetFailure.atWrite failure with
      | some (bytes, message) => (.error message, db, fs.put file (entry.take bytes))
      | none =>
        let history := (db.index.lookup key).getD [] ++ [(now, currentOffset)]
        (.ok now, { db with index := db.index.insert key history }, fs.put file entry)

def ChronosDB.readAt (db : ChronosDB) (fs : FileSystem) (offset : ℕ) : Except Text Text :=
  match (fs.openFile db.path readOptions none).1 with
  | .error err => .error err.display
  | .ok file =>
    match deserialize ((fs.content file.inode).drop offset) with
    | .error message => .error message
    | .ok entry => .ok entry.value

theorem pred_index_lt {p : UInt64 × ℕ → Bool} {history : List (UInt64 × ℕ)}
    (h : partitionPoint p history ≠ 0) : partitionPoint p history - 1 < history.length := by
  have hle := partitionPoint_le p history
  omega

def ChronosDB.getAtTime (db : ChronosDB) (fs : FileSystem) (key : Text) (queryTime : UInt64) :
    Option Text :=
  match db.index.lookup key with
  | none => none
  | some history =>
    if h : partitionPoint (fun v => decide (v.1 ≤ queryTime)) history = 0 then none
    else
      let v := history.get ⟨_, pred_index_lt h⟩
      (db.readAt deserialize fs v.2).toOption

structure Store where
  fs : FileSystem
  db : ChronosDB

structure SetCall where
  key : Text
  value : Text
  now : UInt64
  failure : Option SetFailure

def SetCall.entry (call : SetCall) : Entry := ⟨call.key, call.value, call.now⟩

def Store.set (s : Store) (call : SetCall) : Except Text UInt64 × Store :=
  let (result, db, fs) := s.db.set serialize s.fs call.key call.value call.now call.failure
  (result, ⟨fs, db⟩)

def Store.get (s : Store) (key : Text) (queryTime : UInt64) : Option Text :=
  s.db.getAtTime deserialize s.fs key queryTime

def Store.run (s : Store) (calls : List SetCall) : Store :=
  calls.foldl (fun s call => (s.set serialize call).2) s

/-- The entries of the calls that returned `Ok`, in order. -/
def Store.succeeded (s : Store) : List SetCall → List Entry
  | [] => []
  | call :: calls =>
    match s.set serialize call with
    | (.ok _, s) => call.entry :: s.succeeded calls
    | (.error _, s) => s.succeeded calls

/-- `bincode` reads an entry from the start of its own encoding. -/
def Decodes (e : Entry) : Prop := ∀ rest, deserialize (serialize e ++ rest) = .ok e

variable {serialize deserialize} {fs fs' : FileSystem} {path : String} {s : Store}
  {stored : List (Entry × ℕ)} {calls : List SetCall}

def Grown (fs fs' : FileSystem) (path : String) : Prop :=
  ∀ i, fs.directory path = some i →
    fs'.directory path = some i ∧ fs.content i <+: fs'.content i

/-- The encoding of the entry is at the offset, whatever follows it. -/
def StoredAt (serialize : Entry → Bytes) (fs : FileSystem) (path : String) (v : Entry × ℕ) : Prop :=
  ∃ i, fs.directory path = some i ∧ serialize v.1 <+: (fs.content i).drop v.2

theorem StoredAt.grown {v : Entry × ℕ} (h : StoredAt serialize fs path v)
    (hg : Grown fs fs' path) : StoredAt serialize fs' path v := by
  obtain ⟨i, hi, hbytes⟩ := h
  obtain ⟨hdir, hcontent⟩ := hg i hi
  exact ⟨i, hdir, hbytes.trans (hcontent.drop v.2)⟩

theorem readAt_stored {db : ChronosDB} {v : Entry × ℕ} (h : StoredAt serialize fs db.path v)
    (hd : Decodes serialize deserialize v.1) :
    db.readAt deserialize fs v.2 = .ok v.1.value := by
  obtain ⟨i, hi, rest, hrest⟩ := h
  have hopen : (fs.openFile db.path readOptions none).1 = .ok ⟨i, false, 0⟩ := by
    simp only [FileSystem.openFile, hi]
    rfl
  simp only [ChronosDB.readAt, hopen, ← hrest, hd rest]

theorem Grown.refl (fs : FileSystem) (path : String) : Grown fs fs path := by
  intro i hi
  exact ⟨hi, List.prefix_rfl⟩

theorem Grown.trans {fs₁ fs₂ fs₃ : FileSystem} (h : Grown fs₁ fs₂ path)
    (h' : Grown fs₂ fs₃ path) : Grown fs₁ fs₃ path := by
  intro i hi
  obtain ⟨hdir, hcontent⟩ := h i hi
  obtain ⟨hdir', hcontent'⟩ := h' i hdir
  exact ⟨hdir', hcontent.trans hcontent'⟩

theorem grown_open (fs : FileSystem) (path : String) :
    ∃ j fs', fs.openFile path setOptions none = (.ok ⟨j, true, 0⟩, fs') ∧
      fs'.directory path = some j ∧ Grown fs fs' path := by
  obtain ⟨j, fs', hopen, hdir, hcontent, _, _⟩ := openFile_create fs path setOptions rfl
  refine ⟨j, fs', hopen, hdir, ?_⟩
  intro i hi
  cases hd : fs.directory path with
  | none =>
    rw [hd] at hi
    cases hi
  | some k =>
    simp only [FileSystem.openFile, hd] at hopen
    cases hopen
    exact Grown.refl fs path i hi

theorem grown_put {j : ℕ} (h : fs.directory path = some j) (data : Bytes) :
    Grown fs (fs.put ⟨j, true, 0⟩ data) path := by
  intro i hi
  refine ⟨hi, ?_⟩
  rw [h] at hi
  cases hi
  have hcontent : (fs.put ⟨j, true, 0⟩ data).content j = fs.content j ++ data :=
    content_put_append rfl
  exact ⟨data, hcontent.symm⟩

theorem storedAt_put {j : ℕ} (h : fs.directory path = some j) (e : Entry) :
    StoredAt serialize (fs.put ⟨j, true, 0⟩ (serialize e)) path (e, (fs.content j).length) := by
  refine ⟨j, h, ?_⟩
  have hcontent : (fs.put ⟨j, true, 0⟩ (serialize e)).content j = fs.content j ++ serialize e :=
    content_put_append rfl
  rw [hcontent, List.drop_left]

/-- A call that fails has only added bytes; one that succeeds has also added an intact entry. -/
theorem set_cases (serialize : Entry → Bytes) (s : Store) (call : SetCall) :
    ∃ fs', Grown s.fs fs' s.db.path ∧
      ((∃ message, s.set serialize call = (.error message, ⟨fs', s.db⟩)) ∨
        ∃ offset, StoredAt serialize fs' s.db.path (call.entry, offset) ∧
          s.set serialize call = (.ok call.now, ⟨fs', { s.db with
            index := s.db.index.insert call.key
              ((s.db.index.lookup call.key).getD [] ++ [(call.now, offset)]) }⟩)) := by
  cases hopening : SetFailure.atOpen call.failure with
  | some err =>
    refine ⟨s.fs, Grown.refl _ _, Or.inl ⟨err.display, ?_⟩⟩
    simp only [Store.set, ChronosDB.set, hopening, FileSystem.openFile]
  | none =>
    obtain ⟨j, fs, hopen, hdir, hgrown⟩ := grown_open s.fs s.db.path
    cases hseek : SetFailure.atSeek call.failure with
    | some err =>
      refine ⟨fs, hgrown, Or.inl ⟨err.display, ?_⟩⟩
      simp only [Store.set, ChronosDB.set, hopening, hopen, hseek]
    | none =>
      cases hwrite : SetFailure.atWrite call.failure with
      | some cut =>
        refine ⟨fs.put ⟨j, true, 0⟩ ((serialize call.entry).take cut.1),
          hgrown.trans (grown_put hdir _), Or.inl ⟨cut.2, ?_⟩⟩
        simp only [Store.set, ChronosDB.set, hopening, hopen, hseek, hwrite]
        rfl
      | none =>
        refine ⟨fs.put ⟨j, true, 0⟩ (serialize call.entry), hgrown.trans (grown_put hdir _),
          Or.inr ⟨(fs.content j).length, storedAt_put hdir call.entry, ?_⟩⟩
        simp only [Store.set, ChronosDB.set, hopening, hopen, hseek, hwrite]
        rfl

/-- The index lists the entries stored so far, and all of them are intact. -/
structure Kept (serialize : Entry → Bytes) (s : Store) (stored : List (Entry × ℕ)) : Prop where
  index : ∀ k, (s.db.index.lookup k).getD [] =
    (ofKey (fun v => v.1.key) stored k).map fun v => (v.1.timestamp, v.2)
  intact : ∀ v ∈ stored, StoredAt serialize s.fs s.db.path v

theorem Kept.set (h : Kept serialize s stored) (call : SetCall) :
    (∃ message s', s.set serialize call = (.error message, s') ∧ Kept serialize s' stored) ∨
      ∃ offset s', s.set serialize call = (.ok call.now, s') ∧
        Kept serialize s' (stored ++ [(call.entry, offset)]) := by
  obtain ⟨fs', hgrown, ⟨message, hset⟩ | ⟨offset, hstored, hset⟩⟩ := set_cases serialize s call
  · left
    refine ⟨message, _, hset, h.index, ?_⟩
    intro v hv
    exact (h.intact v hv).grown hgrown
  · right
    refine ⟨offset, _, hset, ?_, ?_⟩
    · intro k
      by_cases hk : k = call.key
      · subst hk
        simp [ofKey, SetCall.entry, h.index, List.filter_append]
      · have hother : call.entry.key ≠ k := Ne.symm hk
        simp [ofKey, hother, Finmap.lookup_insert_of_ne _ hk, h.index]
    · intro v hv
      rcases List.mem_append.mp hv with hv | hv
      · exact (h.intact v hv).grown hgrown
      · rw [List.mem_singleton.mp hv]
        exact hstored

theorem Kept.run (h : Kept serialize s stored) (calls : List SetCall) :
    ∃ more, Kept serialize (s.run serialize calls) (stored ++ more) ∧
      more.map Prod.fst = s.succeeded serialize calls := by
  induction calls generalizing s stored with
  | nil =>
    refine ⟨[], ?_, rfl⟩
    rw [List.append_nil]
    exact h
  | cons call calls ih =>
    rcases h.set call with ⟨message, s', hset, hkept⟩ | ⟨offset, s', hset, hkept⟩
    · obtain ⟨more, hmore, hmap⟩ := ih hkept
      refine ⟨more, ?_, ?_⟩
      · simpa [Store.run, hset] using hmore
      · rw [Store.succeeded, hset]
        exact hmap
    · obtain ⟨more, hmore, hmap⟩ := ih hkept
      refine ⟨(call.entry, offset) :: more, ?_, ?_⟩
      · simpa [Store.run, hset] using hmore
      · rw [Store.succeeded, hset, List.map_cons, hmap]

theorem getAtTime_eq (db : ChronosDB) (fs : FileSystem) (k : Text) (q : UInt64) :
    db.getAtTime deserialize fs k q =
      let history := (db.index.lookup k).getD []
      let index := partitionPoint (fun v => decide (v.1 ≤ q)) history
      if index = 0 then none
      else history[index - 1]?.bind fun v => (db.readAt deserialize fs v.2).toOption := by
  rw [ChronosDB.getAtTime]
  cases hlookup : db.index.lookup k with
  | none => simp
  | some history =>
    simp only [Option.getD_some]
    split
    · rfl
    · next hindex =>
      rw [List.getElem?_eq_getElem (pred_index_lt hindex)]
      rfl

theorem Kept.get (h : Kept serialize s stored)
    (hsorted : stored.Pairwise fun v w => v.1.timestamp ≤ w.1.timestamp)
    (hd : ∀ v ∈ stored, Decodes serialize deserialize v.1) (k : Text) (q : UInt64) :
    s.get deserialize k q =
      (asOf (fun v => v.1.key) (fun v => v.1.timestamp) stored k q).map fun v => v.1.value := by
  rw [asOf_eq hsorted, Store.get, getAtTime_eq]
  simp only [h.index, partitionPoint_map, List.getElem?_map]
  split
  · rfl
  · cases hv : (ofKey (fun v : Entry × ℕ => v.1.key) stored k)[partitionPoint
        (fun v => decide (v.1.timestamp ≤ q)) (ofKey (fun v => v.1.key) stored k) - 1]? with
    | none => rfl
    | some v =>
      have hmem : v ∈ stored := List.mem_of_mem_filter (List.mem_of_getElem? hv)
      simp only [Option.map_some, Option.bind_some]
      rw [readAt_stored (h.intact v hmem) (hd v hmem)]
      rfl

theorem succeeded_sublist (serialize : Entry → Bytes) (s : Store) (calls : List SetCall) :
    (s.succeeded serialize calls).Sublist (calls.map SetCall.entry) := by
  induction calls generalizing s with
  | nil => exact List.Sublist.slnil
  | cons call calls ih =>
    rw [Store.succeeded]
    split
    · exact (ih _).cons_cons _
    · exact (ih _).cons _

theorem new_spec {db : ChronosDB} {failure : Option IoError}
    (h : ChronosDB.new fs path failure = (.ok db, fs')) : db = ⟨path, ∅⟩ := by
  rw [ChronosDB.new] at h
  split at h
  · split at h
    · cases h
    · cases h
      rfl
  · cases h
    rfl

theorem kept_new {db : ChronosDB} {failure : Option IoError}
    (h : ChronosDB.new fs path failure = (.ok db, fs')) : Kept serialize ⟨fs', db⟩ [] := by
  rw [new_spec h]
  constructor
  · intro k
    rfl
  · simp

/-- Reads at a time are exact. Failed calls leave fragments in the file, and no trace in what is
read. -/
theorem time_travel_exact {db : ChronosDB} {failure : Option IoError}
    (hnew : ChronosDB.new fs path failure = (.ok db, fs'))
    (hclock : (calls.map SetCall.now).Pairwise (· ≤ ·))
    (hd : ∀ call ∈ calls, Decodes serialize deserialize call.entry) (k : Text) (q : UInt64) :
    (Store.run serialize ⟨fs', db⟩ calls).get deserialize k q =
      (asOf Entry.key Entry.timestamp (Store.succeeded serialize ⟨fs', db⟩ calls) k q).map
        Entry.value := by
  have hnone : Kept serialize ⟨fs', db⟩ [] := kept_new hnew
  obtain ⟨stored, hkept, hmap⟩ := hnone.run calls
  have hsub := succeeded_sublist serialize ⟨fs', db⟩ calls
  rw [List.nil_append] at hkept
  rw [← hmap] at hsub ⊢
  have hsorted : stored.Pairwise fun v w => v.1.timestamp ≤ w.1.timestamp := by
    have hentries : (calls.map SetCall.entry).Pairwise fun d e => d.timestamp ≤ e.timestamp := by
      rw [List.pairwise_map] at hclock ⊢
      exact hclock
    have hstored := hentries.sublist hsub
    rwa [List.pairwise_map] at hstored
  have hdecodes : ∀ v ∈ stored, Decodes serialize deserialize v.1 := by
    intro v hv
    obtain ⟨call, hcall, he⟩ := List.mem_map.mp (hsub.mem (List.mem_map_of_mem hv))
    rw [← he]
    exact hd call hcall
  rw [hkept.get hsorted hdecodes, asOf_map, Option.map_map]
  rfl

end Bincode

section Layout

open LittleEndian

/-- The layout of `bincode` 1.3: lengths and integers are eight bytes, the lowest first. -/
def stringBytes (t : Text) : Bytes :=
  toBytes 8 (BitVec.ofNat 64 (encode t).length) ++ encode t

def entryBytes (e : Entry) : Bytes :=
  stringBytes e.key ++ stringBytes e.value ++ toBytes 8 e.timestamp.toBitVec

def endOfFile : Text := "io error: failed to fill whole buffer".toList
def notUtf8 : Text := "invalid utf-8".toList

def readWord (data : Bytes) : Except Text (BitVec 64 × Bytes) :=
  if data.length < 8 then .error endOfFile else .ok (ofBytes 8 (data.take 8), data.drop 8)

def readString (data : Bytes) : Except Text (Text × Bytes) :=
  match readWord data with
  | .error message => .error message
  | .ok (length, data) =>
    if data.length < length.toNat then .error endOfFile
    else
      match decode (data.take length.toNat) with
      | none => .error notUtf8
      | some t => .ok (t, data.drop length.toNat)

def readEntry (data : Bytes) : Except Text Entry :=
  match readString data with
  | .error message => .error message
  | .ok (key, data) =>
    match readString data with
    | .error message => .error message
    | .ok (value, data) =>
      match readWord data with
      | .error message => .error message
      | .ok (timestamp, _) => .ok ⟨key, value, ⟨timestamp⟩⟩

theorem readWord_toBytes (w : BitVec 64) (rest : Bytes) :
    readWord (toBytes 8 w ++ rest) = .ok (w, rest) := by
  have hlength : (toBytes 8 w).length = 8 := length_toBytes (n := 8) w
  have hword : ofBytes 8 (toBytes 8 w) = w := ofBytes_toBytes (n := 8) w
  rw [readWord, if_neg (by simp [hlength]), List.take_left' hlength, List.drop_left' hlength, hword]

theorem readString_stringBytes {t : Text} (h : (encode t).length < 2 ^ 64) (rest : Bytes) :
    readString (stringBytes t ++ rest) = .ok (t, rest) := by
  have hlength : (BitVec.ofNat 64 (encode t).length).toNat = (encode t).length := by
    rw [BitVec.toNat_ofNat, Nat.mod_eq_of_lt h]
  have hword : readWord (stringBytes t ++ rest) =
      .ok (BitVec.ofNat 64 (encode t).length, encode t ++ rest) := by
    rw [stringBytes, List.append_assoc, readWord_toBytes]
  simp only [readString, hword, hlength, List.take_left, List.drop_left, decode_encode]
  rw [if_neg (by simp)]

theorem decodes_entryBytes {e : Entry} (hk : (encode e.key).length < 2 ^ 64)
    (hv : (encode e.value).length < 2 ^ 64) : Decodes entryBytes readEntry e := by
  intro rest
  rw [entryBytes, List.append_assoc, List.append_assoc]
  simp only [readEntry, readString_stringBytes hk, readString_stringBytes hv, readWord_toBytes]

end Layout

def estado : List SetCall :=
  [⟨"estado".toList, "ACTIVO".toList, 100, none⟩,
    ⟨"estado".toList, "BORRADO".toList, 150, some (.flush 9 ⟨"disk full".toList⟩)⟩,
    ⟨"estado".toList, "INACTIVO".toList, 200, none⟩]

theorem time_travel_estado :
    (Store.run entryBytes ⟨emptyFileSystem, ⟨"mvp_store.db", ∅⟩⟩ estado).get readEntry
      "estado".toList 199 = some "ACTIVO".toList := by
  have hclock : (estado.map SetCall.now).Pairwise (· ≤ ·) := by decide
  have hdecodes : ∀ call ∈ estado, Decodes entryBytes readEntry call.entry := by
    intro call hcall
    simp only [estado, List.mem_cons, List.not_mem_nil, or_false] at hcall
    rcases hcall with rfl | rfl | rfl
    · exact decodes_entryBytes (by decide) (by decide)
    · exact decodes_entryBytes (by decide) (by decide)
    · exact decodes_entryBytes (by decide) (by decide)
  have hnew : ChronosDB.new emptyFileSystem "mvp_store.db" none =
      (.ok ⟨"mvp_store.db", ∅⟩, emptyFileSystem) := rfl
  rw [time_travel_exact hnew hclock hdecodes]
  rfl

end ChronosTimeTravel
