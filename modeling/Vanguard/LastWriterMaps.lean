import Mathlib.Data.Finmap

/-! Finite maps filled by a sequence of writes, of which the last one to a key counts. A map
has no order of its own; a traversal lists its entries in some order, each of them once. -/
namespace LastWriterMaps

abbrev Map (κ ν : Type*) := Finmap fun _ : κ => ν

variable {κ ν : Type*} [DecidableEq κ]

def write (m : Map κ ν) (r : κ × ν) : Map κ ν := m.insert r.1 r.2

def writeAll (m : Map κ ν) (rs : List (κ × ν)) : Map κ ν := rs.foldl write m

@[simp] theorem writeAll_nil (m : Map κ ν) : writeAll m [] = m := rfl
@[simp] theorem writeAll_cons (m : Map κ ν) (r : κ × ν) (rs : List (κ × ν)) :
    writeAll m (r :: rs) = writeAll (write m r) rs := rfl

theorem writeAll_append (m : Map κ ν) (rs ts : List (κ × ν)) :
    writeAll m (rs ++ ts) = writeAll (writeAll m rs) ts := List.foldl_append

theorem lookup_write (m : Map κ ν) (r : κ × ν) (k : κ) :
    (write m r).lookup k = if k = r.1 then some r.2 else m.lookup k := by
  unfold write
  split
  · next h => rw [h, Finmap.lookup_insert]
  · next h => rw [Finmap.lookup_insert_of_ne m h]

theorem write_eq_self_iff {m : Map κ ν} {r : κ × ν} :
    write m r = m ↔ m.lookup r.1 = some r.2 := by
  constructor
  · intro h
    rw [← h, lookup_write, if_pos rfl]
  · intro h
    apply Finmap.ext_lookup
    intro k
    rw [lookup_write]
    split
    · next hk => rw [hk, h]
    · rfl

theorem lookup_writeAll_of_notMem {rs : List (κ × ν)} {k : κ} (m : Map κ ν)
    (h : k ∉ rs.map Prod.fst) : (writeAll m rs).lookup k = m.lookup k := by
  induction rs generalizing m with
  | nil => rfl
  | cons r rs ih =>
    simp only [List.map_cons, List.mem_cons, not_or] at h
    rw [writeAll_cons, ih _ h.2, lookup_write, if_neg h.1]

theorem lookup_writeAll_of_mem {rs : List (κ × ν)} {k : κ} {v : ν} (m : Map κ ν)
    (hn : (rs.map Prod.fst).Nodup) (h : (k, v) ∈ rs) :
    (writeAll m rs).lookup k = some v := by
  induction rs generalizing m with
  | nil => cases h
  | cons r rs ih =>
    rw [List.map_cons, List.nodup_cons] at hn
    rcases List.mem_cons.mp h with rfl | h
    · rw [writeAll_cons, lookup_writeAll_of_notMem _ hn.1, lookup_write, if_pos rfl]
    · exact ih _ hn.2 h

/-- The list names every entry of the map exactly once. -/
structure Enumerates (m : Map κ ν) (rs : List (κ × ν)) : Prop where
  nodup : (rs.map Prod.fst).Nodup
  complete : ∀ k v, (k, v) ∈ rs ↔ m.lookup k = some v

/-- Whatever the order, writing all entries of a map gives that map. -/
theorem Enumerates.writeAll_empty {m : Map κ ν} {rs : List (κ × ν)} (h : Enumerates m rs) :
    writeAll ∅ rs = m := by
  apply Finmap.ext_lookup
  intro k
  cases hk : m.lookup k with
  | some v => exact lookup_writeAll_of_mem _ h.nodup ((h.complete k v).mpr hk)
  | none =>
    have hmem : k ∉ rs.map Prod.fst := by
      intro hm
      obtain ⟨⟨k', v⟩, hv, rfl⟩ := List.mem_map.mp hm
      rw [(h.complete k' v).mp hv] at hk
      cases hk
    rw [lookup_writeAll_of_notMem _ hmem]
    rfl

/-- The order in which one traversal lists the entries of a map. -/
structure Traversal (κ ν : Type*) [DecidableEq κ] where
  order : Map κ ν → List (κ × ν)
  enumerates : ∀ m, Enumerates m (order m)

def entriesAt (m : Map κ ν) (ks : List κ) : List (κ × ν) :=
  ks.filterMap fun k => (m.lookup k).map fun v => (k, v)

theorem mem_entriesAt {m : Map κ ν} {ks : List κ} {k : κ} {v : ν} :
    (k, v) ∈ entriesAt m ks ↔ k ∈ ks ∧ m.lookup k = some v := by
  simp only [entriesAt, List.mem_filterMap, Option.map_eq_some_iff, Prod.mk.injEq]
  constructor
  · rintro ⟨_, hk, _, hlookup, rfl, rfl⟩
    exact ⟨hk, hlookup⟩
  · rintro ⟨hk, hlookup⟩
    exact ⟨k, hk, v, hlookup, rfl, rfl⟩

theorem keys_entriesAt (m : Map κ ν) (ks : List κ) :
    ((entriesAt m ks).map Prod.fst).Sublist ks := by
  induction ks with
  | nil => exact List.Sublist.slnil
  | cons k ks ih =>
    cases hk : m.lookup k with
    | none => simpa [entriesAt, hk] using ih.cons k
    | some v => simpa [entriesAt, hk] using ih

theorem enumerates_entriesAt {m : Map κ ν} {ks : List κ} (hn : ks.Nodup)
    (hks : ∀ k ∈ m.keys, k ∈ ks) : Enumerates m (entriesAt m ks) where
  nodup := hn.sublist (keys_entriesAt m ks)
  complete k v := by
    rw [mem_entriesAt]
    refine ⟨And.right, fun hlookup => ⟨hks k ?_, hlookup⟩⟩
    rw [Finmap.mem_keys, ← Finmap.lookup_isSome, hlookup]
    rfl

/-- Some traversal exists: a map lists its entries somehow. -/
noncomputable def someTraversal : Traversal κ ν where
  order m := m.entries.toList.map fun e => (e.1, e.2)
  enumerates m := by
    have hkeys : (m.entries.toList.map Sigma.fst).Nodup := by
      have := m.nodupKeys
      rw [← Multiset.coe_toList m.entries] at this
      exact Multiset.coe_nodupKeys.mp this
    refine ⟨by simpa [List.map_map, Function.comp_def] using hkeys, fun k v => ?_⟩
    rw [Finmap.lookup_eq_some_iff]
    simp

end LastWriterMaps
