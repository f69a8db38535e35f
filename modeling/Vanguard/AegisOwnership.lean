import Vanguard.AegisBorrows

/-! Who has a connection to Chronos: the pool or one task, and never two of them. -/
namespace AegisOwnership

open RefCells AegisCore AegisBorrows

def pipeOf : Task → Option ℕ
  | .readingClient _ pipe => some pipe
  | .writingBackend _ pipe => some pipe
  | .readingBackend _ pipe => some pipe
  | .writingClient _ pipe => some pipe
  | _ => none

/-- What a step of the task `t` does with connections. -/
inductive Handover (c c' : Core) (t : ℕ) (task : Task) (e : Event) : Prop where
  | keep (hpool : c'.connPool.value = c.connPool.value)
      (htask : pipeOf task = none ∨ pipeOf task = pipeOf (c.tasks t))
  | take (pipe : ℕ) (hpool : c.connPool.value = pipe :: c'.connPool.value)
      (htask : pipeOf task = some pipe)
  | make (pipe : ℕ) (hpool : c'.connPool.value = c.connPool.value)
      (hevent : e = .connected t (some pipe)) (htask : pipeOf task = some pipe)
  | give (pipe : ℕ) (hroom : c.connPool.value.length < MAX_HOT_PIPES)
      (hpool : c'.connPool.value = c.connPool.value ++ [pipe])
      (hold : pipeOf (c.tasks t) = some pipe) (htask : pipeOf task = none)

variable {c : Core} {t : ℕ}

theorem handover_start (hc : Guarded c) :
    ∃ task, (c.start t).tasks = Function.update c.tasks t task ∧
      Handover c (c.start t) t task (.start t) := by
  rcases hc.connPool with ⟨hflag, _⟩ | ⟨hflag, _⟩
  · cases hv : c.connPool.value with
    | nil =>
      rw [start_cold hc.pool hflag hv]
      exact ⟨_, rfl, .keep hv.symm (Or.inl rfl)⟩
    | cons pipe rest =>
      rw [start_hot hc.pool hflag hv]
      exact ⟨_, rfl, .take pipe hv rfl⟩
  · rw [start_guarded hc.pool hflag]
    exact ⟨_, rfl, .keep rfl (Or.inl rfl)⟩

theorem handover_giveBack (hc : Guarded c) (buf : Buffer) (e : Event) :
    ∃ task, (c.giveBack t buf).tasks = Function.update c.tasks t task ∧
      Handover c (c.giveBack t buf) t task e := by
  rw [giveBack_eq hc.pool]
  exact ⟨_, rfl, .keep rfl (Or.inl rfl)⟩

theorem handover_clientWritten (hc : Guarded c) {buf : Buffer} {pipe : ℕ} {ok : Bool}
    (ht : c.tasks t = .writingClient buf pipe) :
    ∃ task, (c.clientWritten t buf pipe).tasks = Function.update c.tasks t task ∧
      Handover c (c.clientWritten t buf pipe) t task (.clientWritten t ok) := by
  rcases hc.connPool with ⟨hflag, _⟩ | ⟨hflag, _⟩
  · by_cases hroom : c.connPool.value.length < MAX_HOT_PIPES
    · rw [clientWritten_room hc.pool hflag hroom]
      exact ⟨_, rfl, .give pipe hroom rfl (by rw [ht]; rfl) rfl⟩
    · rw [clientWritten_full hc.pool hflag hroom]
      exact ⟨_, rfl, .keep rfl (Or.inl rfl)⟩
  · rw [clientWritten_guarded hc.pool hflag]
    exact ⟨_, rfl, .keep rfl (Or.inl rfl)⟩

theorem handover_connected (hc : Guarded c) (buf : Buffer) (result : Option ℕ) :
    ∃ task, (c.connected t buf result).tasks = Function.update c.tasks t task ∧
      Handover c (c.connected t buf result) t task (.connected t result) := by
  cases result with
  | some pipe => exact ⟨_, rfl, .make pipe rfl rfl rfl⟩
  | none =>
    rw [Core.connected, giveBack_eq hc.pool]
    exact ⟨_, rfl, .keep rfl (Or.inl rfl)⟩

theorem handover_idle (e : Event) :
    ∃ task, c.tasks = Function.update c.tasks t task ∧ Handover c c t task e :=
  ⟨c.tasks t, (Function.update_eq_self t c.tasks).symm, .keep rfl (Or.inr rfl)⟩

/-- Every step is a step of one task, with one handover at most. -/
theorem handover_next (hc : Guarded c) (e : Event) :
    ∃ t task, (next c e).tasks = Function.update c.tasks t task ∧
      Handover c (next c e) t task e := by
  cases e with
  | accept => exact ⟨c.accepted, .spawned, rfl, .keep rfl (Or.inl rfl)⟩
  | start t =>
    refine ⟨t, ?_⟩
    cases ht : c.tasks t with
    | spawned =>
      simp only [next, ht]
      exact handover_start hc
    | _ =>
      simp only [next, ht]
      exact handover_idle _
  | connected t result =>
    refine ⟨t, ?_⟩
    cases ht : c.tasks t with
    | connecting buf =>
      simp only [next, ht]
      exact handover_connected hc buf result
    | _ =>
      simp only [next, ht]
      exact handover_idle _
  | clientRead t result =>
    refine ⟨t, ?_⟩
    cases ht : c.tasks t with
    | readingClient buf pipe =>
      simp only [next, ht]
      cases result with
      | none => exact handover_giveBack hc _ _
      | some chunk =>
        rw [Core.clientRead]
        split
        · exact ⟨_, rfl, .keep rfl (Or.inr (by rw [ht]; rfl))⟩
        · exact handover_giveBack hc _ _
    | _ =>
      simp only [next, ht]
      exact handover_idle _
  | backendWritten t ok =>
    refine ⟨t, ?_⟩
    cases ht : c.tasks t with
    | writingBackend buf pipe =>
      simp only [next, ht]
      cases ok with
      | true => exact ⟨_, rfl, .keep rfl (Or.inr (by rw [ht]; rfl))⟩
      | false => exact handover_giveBack hc _ _
    | _ =>
      simp only [next, ht]
      exact handover_idle _
  | backendRead t result =>
    refine ⟨t, ?_⟩
    cases ht : c.tasks t with
    | readingBackend buf pipe =>
      simp only [next, ht]
      cases result with
      | none => exact handover_giveBack hc _ _
      | some chunk =>
        rw [Core.backendRead]
        split
        · exact ⟨_, rfl, .keep rfl (Or.inr (by rw [ht]; rfl))⟩
        · exact handover_giveBack hc _ _
    | _ =>
      simp only [next, ht]
      exact handover_idle _
  | clientWritten t ok =>
    refine ⟨t, ?_⟩
    cases ht : c.tasks t with
    | writingClient buf pipe =>
      simp only [next, ht]
      exact handover_clientWritten hc ht
    | _ =>
      simp only [next, ht]
      exact handover_idle _

/-- The connections below `limit` have been made; each is in the pool, or with one task, or
dropped. -/
structure Ownership (c : Core) (limit : ℕ) : Prop where
  pooled_made : ∀ p ∈ c.connPool.value, p < limit
  owned_made : ∀ t p, pipeOf (c.tasks t) = some p → p < limit
  nodup : c.connPool.value.Nodup
  apart : ∀ t p, pipeOf (c.tasks t) = some p → p ∉ c.connPool.value
  single : ∀ t u p, pipeOf (c.tasks t) = some p → pipeOf (c.tasks u) = some p → t = u

theorem ownership_initial : Ownership initial 0 := by
  constructor
  · intro p hp
    cases hp
  · intro t p hp
    cases hp
  · exact List.nodup_nil
  · intro t p hp
    cases hp
  · intro t u p hp
    cases hp

theorem owned_update {c' : Core} {task : Task} (h : c'.tasks = Function.update c.tasks t task)
    {u p : ℕ} (hp : pipeOf (c'.tasks u) = some p) :
    u = t ∧ pipeOf task = some p ∨ u ≠ t ∧ pipeOf (c.tasks u) = some p := by
  rw [h] at hp
  by_cases hu : u = t
  · subst hu
    rw [Function.update_self] at hp
    exact Or.inl ⟨rfl, hp⟩
  · rw [Function.update_of_ne hu] at hp
    exact Or.inr ⟨hu, hp⟩

variable {limit : ℕ}

theorem Ownership.keep (h : Ownership c limit) {c' : Core} {task : Task}
    (htasks : c'.tasks = Function.update c.tasks t task)
    (hpool : c'.connPool.value = c.connPool.value)
    (htask : pipeOf task = none ∨ pipeOf task = pipeOf (c.tasks t)) : Ownership c' limit := by
  have hold : ∀ u p, pipeOf (c'.tasks u) = some p → pipeOf (c.tasks u) = some p := by
    intro u p hp
    rcases owned_update htasks hp with ⟨rfl, hp⟩ | ⟨_, hp⟩
    · rcases htask with htask | htask
      · rw [htask] at hp
        cases hp
      · rwa [htask] at hp
    · exact hp
  constructor
  · rw [hpool]
    exact h.pooled_made
  · exact fun u p hp => h.owned_made u p (hold u p hp)
  · rw [hpool]
    exact h.nodup
  · rw [hpool]
    exact fun u p hp => h.apart u p (hold u p hp)
  · exact fun u v p hu hv => h.single u v p (hold u p hu) (hold v p hv)

theorem Ownership.acquire (h : Ownership c limit) {c' : Core} {task : Task} {pipe : ℕ}
    (htasks : c'.tasks = Function.update c.tasks t task) (htask : pipeOf task = some pipe)
    (hpool : c'.connPool.value.Sublist c.connPool.value) (hout : pipe ∉ c'.connPool.value)
    (hfree : ∀ u, pipeOf (c.tasks u) ≠ some pipe) {limit' : ℕ} (hle : limit ≤ limit')
    (hmade : pipe < limit') : Ownership c' limit' := by
  constructor
  · intro p hp
    exact Nat.lt_of_lt_of_le (h.pooled_made p (hpool.subset hp)) hle
  · intro u p hp
    rcases owned_update htasks hp with ⟨_, hp⟩ | ⟨_, hp⟩
    · rw [htask] at hp
      cases hp
      exact hmade
    · exact Nat.lt_of_lt_of_le (h.owned_made u p hp) hle
  · exact hpool.nodup h.nodup
  · intro u p hp
    rcases owned_update htasks hp with ⟨_, hp⟩ | ⟨_, hp⟩
    · rw [htask] at hp
      cases hp
      exact hout
    · exact fun hm => h.apart u p hp (hpool.subset hm)
  · intro u v p hu hv
    rcases owned_update htasks hu with ⟨rfl, hu⟩ | ⟨_, hu⟩
    · rcases owned_update htasks hv with ⟨rfl, _⟩ | ⟨_, hv⟩
      · rfl
      · rw [htask] at hu
        cases hu
        exact absurd hv (hfree v)
    · rcases owned_update htasks hv with ⟨rfl, hv⟩ | ⟨_, hv⟩
      · rw [htask] at hv
        cases hv
        exact absurd hu (hfree u)
      · exact h.single u v p hu hv

theorem Ownership.give (h : Ownership c limit) {c' : Core} {task : Task} {pipe : ℕ}
    (htasks : c'.tasks = Function.update c.tasks t task) (htask : pipeOf task = none)
    (hold : pipeOf (c.tasks t) = some pipe)
    (hpool : c'.connPool.value = c.connPool.value ++ [pipe]) : Ownership c' limit := by
  have hothers : ∀ u p, pipeOf (c'.tasks u) = some p → u ≠ t ∧ pipeOf (c.tasks u) = some p := by
    intro u p hp
    rcases owned_update htasks hp with ⟨_, hp⟩ | hp
    · rw [htask] at hp
      cases hp
    · exact hp
  constructor
  · intro p hp
    rw [hpool] at hp
    rcases List.mem_append.mp hp with hp | hp
    · exact h.pooled_made p hp
    · rw [List.mem_singleton.mp hp]
      exact h.owned_made t pipe hold
  · exact fun u p hp => h.owned_made u p (hothers u p hp).2
  · rw [hpool]
    refine List.nodup_append.mpr ⟨h.nodup, by simp, ?_⟩
    intro p hp q hq he
    rw [he, List.mem_singleton.mp hq] at hp
    exact h.apart t pipe hold hp
  · intro u p hp hm
    rw [hpool] at hm
    obtain ⟨hne, hp⟩ := hothers u p hp
    rcases List.mem_append.mp hm with hm | hm
    · exact h.apart u p hp hm
    · rw [List.mem_singleton.mp hm] at hp
      exact hne (h.single u t pipe hp hold)
  · exact fun u v p hu hv => h.single u v p (hothers u p hu).2 (hothers v p hv).2

theorem Ownership.mono (h : Ownership c limit) {limit' : ℕ} (hle : limit ≤ limit') :
    Ownership c limit' :=
  ⟨fun p hp => Nat.lt_of_lt_of_le (h.pooled_made p hp) hle,
    fun u p hp => Nat.lt_of_lt_of_le (h.owned_made u p hp) hle, h.nodup, h.apart, h.single⟩

theorem Ownership.next (h : Ownership c limit) (hc : Guarded c) {e : Event} {limit' : ℕ}
    (hle : limit ≤ limit')
    (hnew : ∀ t pipe, e = .connected t (some pipe) → limit ≤ pipe ∧ pipe < limit') :
    Ownership (next c e) limit' := by
  obtain ⟨t, task, htasks, hhand⟩ := handover_next hc e
  cases hhand with
  | keep hpool htask => exact (h.keep htasks hpool htask).mono hle
  | take pipe hpool htask =>
    have hmem : pipe ∈ c.connPool.value := by
      rw [hpool]
      exact List.mem_cons_self
    have hnodup := h.nodup
    rw [hpool, List.nodup_cons] at hnodup
    apply h.acquire htasks htask _ hnodup.1 _ hle
    · exact Nat.lt_of_lt_of_le (h.pooled_made pipe hmem) hle
    · rw [hpool]
      exact List.sublist_cons_self _ _
    · exact fun u hu => h.apart u pipe hu hmem
  | make pipe hpool hevent htask =>
    obtain ⟨hfresh, hmade⟩ := hnew t pipe hevent
    apply h.acquire htasks htask _ _ _ hle hmade
    · rw [hpool]
    · rw [hpool]
      exact fun hm => absurd (h.pooled_made pipe hm) (Nat.not_lt.mpr hfresh)
    · exact fun u hu => absurd (h.owned_made u pipe hu) (Nat.not_lt.mpr hfresh)
  | give pipe _ hpool hold htask => exact (h.give htasks htask hold hpool).mono hle

end AegisOwnership
