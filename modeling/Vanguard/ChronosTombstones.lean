import Vanguard.ChronosDurability
import Vanguard.ChronosKeyValue

/-! What a compaction leaves. The engine does not know that the value of a deleted key stands for
its absence, so `compact` writes a record for it as for any other. -/
namespace ChronosTombstones

open Utf8Text FileSystems LastWriterMaps StateMachines ChronosEngine ChronosLogFormat ChronosStore
open ChronosParser ChronosServer ChronosDurability ChronosKeyValue

def records (data : Bytes) : List (Text × Text) :=
  (lines data).filterMap fun line => line.bind (splitOnce ',')

/-- What the latest command on a key was: `some none` is a deletion. -/
def latest (history : List Command) (k : Text) : Option (Option Text) :=
  history.findSome? (effect k)

/-- Just the keys with a value take up space, each of them once. -/
structure Pruned (history : List Command) (db : Db) : Prop where
  log : ∀ k, ((records (db.fs.read DB_PATH)).map Prod.fst).count k =
    if (lastValue history k).isSome then 1 else 0
  map : ∀ k, k ∈ db.engine.map → (lastValue history k).isSome

/-- Every `GET` is answered as it was, also by the next engine. -/
def AnswersAs (before after : Db) : Prop :=
  (∀ k, answer (after.engine.get k) = answer (before.engine.get k)) ∧ SurvivesRestart after

theorem replay_records (data : Bytes) : replay data = writeAll ∅ (records data) := by
  suffices h : ∀ ls : List (Option Text), ∀ m, ls.foldl replayLine m =
      writeAll m (ls.filterMap fun line => line.bind (splitOnce ',')) from h (lines data) ∅
  intro ls
  induction ls with
  | nil => exact fun _ => rfl
  | cons line ls ih =>
    intro m
    rw [List.foldl_cons, ih]
    cases line with
    | none => rfl
    | some text =>
      cases hsplit : splitOnce ',' text with
      | none => simp only [replayLine, hsplit, List.filterMap_cons, Option.bind_some]
      | some r => simp only [replayLine, hsplit, List.filterMap_cons, Option.bind_some,
          writeAll_cons, write]

theorem records_encodeLog {rs : List (Text × Text)} (h : ∀ r ∈ rs, Storable r) :
    records (encodeLog rs) = rs := by
  rw [records, lines_encodeLog h, List.filterMap_map]
  induction rs with
  | nil => rfl
  | cons r rs ih =>
    have hsplit : splitOnce ',' (body r) = some r :=
      splitOnce_append (h r List.mem_cons_self).key_comma
    simp only [List.filterMap_cons, Function.comp_apply, Option.bind_some, hsplit]
    exact congrArg (r :: ·) (ih fun t ht => h t (List.mem_cons_of_mem _ ht))

theorem commandsOf_snoc (ms : List Message) (m : Message) :
    commandsOf (ms ++ [m]) = m.command.toList ++ commandsOf ms := by
  cases hc : m.command with
  | none => simp [commandsOf, hc]
  | some c => simp [commandsOf, hc]

theorem latest_cons (c : Command) (history : List Command) (k : Text) :
    latest (c :: history) k = (effect k c).or (latest history k) := by
  rw [latest, List.findSome?_cons]
  cases effect k c with
  | none => rfl
  | some o => rfl

theorem mem_write (m : HashMap) (r : Text × Text) (k : Text) :
    k ∈ write m r ↔ k = r.1 ∨ k ∈ m := Finmap.mem_insert

theorem mem_execute {db : Db} {history : List Command}
    (h : ∀ k, k ∈ db.engine.map ↔ (latest history k).isSome) (t : Traversal Text Text)
    (c : Command) (k : Text) :
    k ∈ (execute db (healthy t) c).1.engine.map ↔ (latest (c :: history) k).isSome := by
  rw [execute_map, latest_cons]
  cases hw : writes c with
  | none =>
    rw [effect_of_writes_none hw]
    exact h k
  | some pair =>
    obtain ⟨key, v⟩ := pair
    obtain ⟨o, _, heffect⟩ := writes_effect hw k
    rw [heffect, Option.toList_some, writeAll_cons, writeAll_nil, mem_write]
    by_cases hk : k = key
    · rw [if_pos hk.symm]
      exact iff_of_true (Or.inl hk) rfl
    · rw [if_neg (Ne.symm hk), Option.none_or]
      exact (or_iff_right hk).trans (h k)

theorem mem_served {db : Db} (hempty : db.engine.map = ∅) (ms : List Message) (k : Text) :
    k ∈ (served db ms).engine.map ↔ (latest (commandsOf ms) k).isSome := by
  induction ms using List.reverseRecOn generalizing k with
  | nil =>
    show k ∈ db.engine.map ↔ _
    rw [hempty]
    exact iff_of_false Finmap.notMem_empty (by simp [latest, commandsOf])
  | append_singleton ms m ih =>
    rw [served_snoc, commandsOf_snoc]
    cases hc : m.command with
    | none =>
      rw [serve_panic hc]
      exact ih k
    | some c =>
      rw [serve_command hc]
      exact mem_execute ih m.order c k

theorem count_order (m : HashMap) (t : Traversal Text Text) (k : Text) :
    ((t.order m).map Prod.fst).count k = if k ∈ m then 1 else 0 := by
  have henum := t.enumerates m
  rw [List.Nodup.count henum.nodup]
  congr 1
  rw [List.mem_map, Finmap.mem_iff, eq_iff_iff]
  constructor
  · rintro ⟨⟨_, v⟩, hr, rfl⟩
    exact ⟨v, (henum.complete _ v).mp hr⟩
  · rintro ⟨v, hv⟩
    exact ⟨(k, v), (henum.complete k v).mpr hv, rfl⟩

theorem compacted_records {db : Db} {rs : List (Text × Text)} (h : Carries db rs)
    (t : Traversal Text Text) (k : Text) :
    ((records ((db.compact t none).2.fs.read DB_PATH)).map Prod.fst).count k =
      if k ∈ db.engine.map then 1 else 0 := by
  obtain ⟨_, _, hcarries⟩ := h.compact t
  rw [hcarries.read, records_encodeLog hcarries.storable]
  exact count_order db.engine.map t k

theorem lastValue_isSome (history : List Command) (k : Text) :
    (lastValue history k).isSome ↔
      (latest history k).isSome ∧ latest history k ≠ some none := by
  rw [lastValue, latest]
  rcases history.findSome? (effect k) with _ | _ | v
  · exact iff_of_false (by simp) fun h => absurd h.1 (by simp)
  · exact iff_of_false (by simp) fun h => h.2 rfl
  · exact iff_of_true rfl ⟨rfl, (by simp)⟩

theorem pruned_iff {db : Db} {rs : List (Text × Text)} {history : List Command}
    (h : Carries db rs) (hmem : ∀ k, k ∈ db.engine.map ↔ (latest history k).isSome)
    (t : Traversal Text Text) :
    Pruned history (db.compact t none).2 ↔ ∀ k, latest history k ≠ some none := by
  obtain ⟨_, hmap, _⟩ := h.compact t
  constructor
  · intro hpruned k hdeleted
    have hk : k ∈ (db.compact t none).2.engine.map := by
      rw [hmap, hmem, hdeleted]
      rfl
    exact ((lastValue_isSome history k).mp (hpruned.map k hk)).2 hdeleted
  · intro hnone
    have hlive : ∀ k, (lastValue history k).isSome ↔ k ∈ db.engine.map := by
      intro k
      rw [lastValue_isSome, hmem]
      exact and_iff_left (hnone k)
    constructor
    · intro k
      rw [compacted_records h]
      simp only [hlive]
    · intro k hk
      rw [hmap] at hk
      exact (hlive k).mpr hk

/-- A compaction changes no answer, now or after a restart. It leaves just the live keys if and
only if there is no deleted one. -/
theorem compaction_prunes_iff (fs : FileSystem) (hempty : fs.read DB_PATH = [])
    (ms : List Message) (hm : ∀ m ∈ ms, CommaFree m) (m : Message)
    (hc : m.command = some .compact) :
    ∃ db₀, boot fs = some db₀ ∧
      let before := served db₀ ms
      let after := served db₀ (ms ++ [m])
      (serve before m).2 = some "OK_COMPACTED\n".toList ∧ AnswersAs before after ∧
        (Pruned (commandsOf (ms ++ [m])) after ↔
          ∀ k, latest (commandsOf ms) k ≠ some none) := by
  have hlog : fs.read DB_PATH = encodeLog [] := hempty
  obtain ⟨db₀, hboot, hcarries⟩ := boot_carries hlog (by simp)
  obtain ⟨ts, hts⟩ := served_carries hcarries hm
  have hafter : served db₀ (ms ++ [m]) = ((served db₀ ms).compact m.order none).2 := by
    rw [served_snoc, serve_command hc, execute_store]
    rfl
  have hhistory : latest (commandsOf (ms ++ [m])) = latest (commandsOf ms) := by
    rw [commandsOf_snoc, hc]
    rfl
  have hmem : ∀ k, k ∈ (served db₀ ms).engine.map ↔
      (latest (commandsOf (ms ++ [m])) k).isSome := by
    rw [hhistory]
    exact mem_served hcarries.map ms
  obtain ⟨_, hmap, hcompacted⟩ := hts.compact m.order
  refine ⟨db₀, hboot, ?_, ⟨?_, ?_⟩, ?_⟩
  · rw [serve_command hc]
    exact congrArg some (compact_reply _ m.order)
  · intro k
    rw [hafter, Engine.get, hmap]
    rfl
  · rw [hafter]
    exact survives_of_carries hcompacted
  · rw [hafter, ← hhistory]
    exact pruned_iff hts hmem m.order

theorem compaction_prunes_iff_two_keys :
    ∃ db₀, boot emptyFileSystem = some db₀ ∧
      let ms : List Message := [⟨someTraversal, encode "SET k a\n".toList⟩,
        ⟨someTraversal, encode "SET j b\n".toList⟩, ⟨someTraversal, encode "SET k c\n".toList⟩]
      let m : Message := ⟨someTraversal, encode "COMPACT\n".toList⟩
      let before := served db₀ ms
      let after := served db₀ (ms ++ [m])
      (serve before m).2 = some "OK_COMPACTED\n".toList ∧ AnswersAs before after ∧
        (Pruned (commandsOf (ms ++ [m])) after ↔
          ∀ k, latest (commandsOf ms) k ≠ some none) :=
  compaction_prunes_iff emptyFileSystem rfl _ (by
    intro m hm
    simp only [List.mem_cons, List.not_mem_nil, or_false] at hm
    rcases hm with rfl | rfl | rfl <;> decide) _ (by decide)

theorem deleted_key_kept :
    ∃ db₀, boot emptyFileSystem = some db₀ ∧
      let ms : List Message := [⟨someTraversal, encode "SET k a\n".toList⟩,
        ⟨someTraversal, encode "DEL k\n".toList⟩]
      let m : Message := ⟨someTraversal, encode "COMPACT\n".toList⟩
      let after := served db₀ (ms ++ [m])
      latest (commandsOf (ms ++ [m])) ['k'] = some none ∧ ['k'] ∈ after.engine.map ∧
        ((records (after.fs.read DB_PATH)).map Prod.fst).count ['k'] = 1 ∧
        ¬ Pruned (commandsOf (ms ++ [m])) after := by
  have hlog : emptyFileSystem.read DB_PATH = encodeLog [] := rfl
  obtain ⟨db₀, hboot, hcarries⟩ := boot_carries hlog (by simp)
  refine ⟨db₀, hboot, ?_⟩
  intro ms m after
  have hm : ∀ m ∈ ms, CommaFree m := by
    intro m hm
    simp only [ms, List.mem_cons, List.not_mem_nil, or_false] at hm
    rcases hm with rfl | rfl <;> decide
  obtain ⟨ts, hts⟩ := served_carries hcarries hm
  have hmem : ∀ k, k ∈ (served db₀ ms).engine.map ↔ (latest (commandsOf ms) k).isSome :=
    mem_served hcarries.map ms
  have hdeleted : latest (commandsOf ms) ['k'] = some none := by decide
  have hk : ['k'] ∈ (served db₀ ms).engine.map := by
    rw [hmem, hdeleted]
    rfl
  have hafter : after = ((served db₀ ms).compact someTraversal none).2 := by
    show served db₀ (ms ++ [m]) = _
    rw [served_snoc, serve_command (m := m) (c := .compact) (by decide), execute_store]
    rfl
  obtain ⟨_, hmap, _⟩ := hts.compact someTraversal
  refine ⟨by decide, ?_, ?_, ?_⟩
  · rw [hafter, hmap]
    exact hk
  · rw [hafter, compacted_records hts, if_pos hk]
  · have hsame : commandsOf (ms ++ [m]) = .compact :: commandsOf ms := by decide
    rw [hafter, hsame]
    intro hpruned
    exact (pruned_iff hts hmem someTraversal).mp ⟨hpruned.log, hpruned.map⟩ ['k'] hdeleted

end ChronosTombstones
