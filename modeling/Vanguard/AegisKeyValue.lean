import Vanguard.AegisPairing
import Vanguard.ChronosKeyValue

/-! Chronos behind the cores of AEGIS as one map. The handlers answer one request at a time, so the
replies in the order in which they were given are a history of the map, and the clients see nothing
else. -/
namespace AegisKeyValue

open Utf8Text FileSystems LastWriterMaps StateMachines AegisCore AegisPairing
open ChronosEngine ChronosParser ChronosStore ChronosServer ChronosKeyValue

/-- The commands that were answered, in the order of the answers. -/
def commands (replies : List Reply) : List Command :=
  replies.filterMap fun r => parse (decodeLossy r.raw)

/-- Every reply is the one that a map gives which has executed the commands before it. -/
def Serial (replies : List Reply) : Prop :=
  ∀ before r after, replies = before ++ r :: after →
    ∃ c, parse (decodeLossy r.raw) = some c ∧
      r.response = reference live (commands before).reverse c

/-- The log can carry the key of the command. -/
def CommaFree (c : Command) : Prop := ∀ r, writes c = some r → ',' ∉ r.1

/-- The store is the map that these replies come from, and while no key has a comma its log is. -/
structure Mapped (db : Db) (replies : List Reply) : Prop where
  agrees : Agrees db (commands replies).reverse
  serial : Serial replies
  carried : (∀ c ∈ commands replies, CommaFree c) → ∃ rs, Carries db rs

/-- The cores of AEGIS in front of Chronos, which has clients of its own too. The store is one, and
the replies to all of them, in the order in which they were given, are a ghost observation. -/
structure Front (n : ℕ) where
  core : Fin n → System
  db : Db
  history : List (Option (Fin n) × Reply)

inductive Event (n : ℕ) where
  | core (k : Fin n) (e : AegisPairing.Event)
  | direct (client : ℕ) (env : Environment) (raw : Bytes)

def opened (n : ℕ) (db : Db) : Front n := ⟨fun _ => start db, db, []⟩

def Front.system {n : ℕ} (s : Front n) (k : Fin n) : System := { s.core k with db := s.db }

def next {n : ℕ} (s : Front n) : Event n → Front n
  | .core k e =>
    let after := AegisPairing.next (s.system k) e
    { core := Function.update s.core k after
      db := after.db
      history := s.history ++
        (after.replies.drop (s.core k).replies.length).map fun r => (some k, r) }
  | .direct client env raw =>
    match handleMessage s.db env raw with
    | (_, none) => s
    | (db, some response) =>
      { s with db := db, history := s.history ++ [(none, ⟨client, raw, response⟩)] }

/-- The reads between AEGIS and Chronos take all that was sent. -/
def Whole {n : ℕ} (s : Front n) : Event n → Prop
  | .core k e => AegisPairing.Whole (s.system k) e
  | .direct _ _ _ => True

/-- The disk does not fail while a message is handled. -/
def Healthy {n : ℕ} : Event n → Prop
  | .core _ (.handle _ _ env) => ∃ t, env = healthy t
  | .core _ _ => True
  | .direct _ env _ => ∃ t, env = healthy t

def repliesFor {n : ℕ} (s : Front n) (k : Fin n) (t : ℕ) : List (Option (Fin n) × Reply) :=
  s.history.filter fun r => r.1 = some k ∧ r.2.task = t

/-- The reply to the client `t` of the core `k` comes before the one to the client `u` of `l`. -/
def RepliesBefore {n : ℕ} (s : Front n) (k : Fin n) (t : ℕ) (l : Fin n) (u : ℕ) : Prop :=
  ∃ before r between r' after,
    s.history = before ++ (some k, r) :: (between ++ (some l, r') :: after) ∧
      r.task = t ∧ r'.task = u

variable {s : System}

theorem commands_concat (replies : List Reply) {r : Reply} {c : Command}
    (h : parse (decodeLossy r.raw) = some c) :
    commands (replies ++ [r]) = commands replies ++ [c] := by
  simp [commands, h]

theorem commands_snoc (replies : List Reply) {r : Reply} {c : Command}
    (h : parse (decodeLossy r.raw) = some c) :
    (commands (replies ++ [r])).reverse = c :: (commands replies).reverse := by
  rw [commands_concat replies h, List.reverse_append]
  rfl

theorem Serial.snoc {replies : List Reply} (h : Serial replies) {r : Reply} {c : Command}
    (hparse : parse (decodeLossy r.raw) = some c)
    (hresponse : r.response = reference live (commands replies).reverse c) :
    Serial (replies ++ [r]) := by
  intro before q after hsplit
  rcases split_snoc hsplit with ⟨rfl, rfl, _⟩ | ⟨rest, hrest⟩
  · exact ⟨c, hparse, hresponse⟩
  · exact h before q rest hrest

theorem carries_execute {db : Db} {rs : List (Text × Text)} (h : Carries db rs)
    (t : Traversal Text Text) {input : Text} {c : Command} (hparse : parse input = some c)
    (hfree : CommaFree c) : ∃ ts, Carries (execute db (healthy t) c).1 ts := by
  have hstorable : ∀ r ∈ (storeOps t c).flatMap Op.sets, ChronosLogFormat.Storable r := by
    intro r hr
    rw [sets_storeOps, Option.mem_toList] at hr
    exact storable_of_writes hparse hr (hfree r hr)
  obtain ⟨ts, hts, _⟩ := run_carries h _ hstorable
  exact ⟨ts, by rwa [execute_store]⟩

theorem Mapped.handled {db : Db} {replies : List Reply} (h : Mapped db replies)
    (t : Traversal Text Text) (task : ℕ) (raw : Bytes) :
    match handleMessage db (healthy t) raw with
    | (_, none) => parse (decodeLossy raw) = none
    | (db', some response) => Mapped db' (replies ++ [⟨task, raw, response⟩]) := by
  unfold handleMessage
  cases hparse : parse (decodeLossy raw) with
  | none => rfl
  | some c =>
    refine ⟨?_, h.serial.snoc hparse (h.agrees.reply t c), ?_⟩
    · rw [commands_snoc replies hparse]
      exact h.agrees.execute t c
    · intro hfree
      rw [commands_concat replies hparse] at hfree
      obtain ⟨rs, hcarries⟩ := h.carried fun d hd => hfree d (List.mem_append_left _ hd)
      exact carries_execute hcarries t hparse (hfree c (by simp))

theorem mapped_handle {replies : List Reply} (h : Mapped s.db replies) (p n : ℕ)
    (t : Traversal Text Text) :
    ∃ more, (s.handle p n (healthy t)).replies = s.replies ++ more ∧
      Mapped (s.handle p n (healthy t)).db (replies ++ more) := by
  unfold System.handle
  dsimp only
  split
  · have hhandled := h.handled t (s.pipe p).sender ((s.pipe p).up.take n)
    generalize handleMessage s.db (healthy t) ((s.pipe p).up.take n) = outcome at hhandled ⊢
    obtain ⟨db, _ | response⟩ := outcome
    · exact ⟨[], (List.append_nil _).symm, by rwa [List.append_nil]⟩
    · exact ⟨_, rfl, hhandled⟩
  · exact ⟨[], (List.append_nil _).symm, by rwa [List.append_nil]⟩

theorem store_frame (s : System) {e : AegisPairing.Event}
    (h : ∀ p n env, e ≠ .handle p n env) :
    (AegisPairing.next s e).db = s.db ∧ (AegisPairing.next s e).replies = s.replies := by
  cases e with
  | handle p n env => exact absurd rfl (h p n env)
  | accept request => exact ⟨rfl, rfl⟩
  | start t => exact ⟨rfl, rfl⟩
  | fails t => exact ⟨rfl, rfl⟩
  | connect t =>
    simp only [AegisPairing.next]
    split <;> exact ⟨rfl, rfl⟩
  | clientRead t n =>
    simp only [AegisPairing.next]
    split
    · split <;> exact ⟨rfl, rfl⟩
    · exact ⟨rfl, rfl⟩
  | transmit t n =>
    simp only [AegisPairing.next]
    split
    · split <;> exact ⟨rfl, rfl⟩
    · exact ⟨rfl, rfl⟩
  | backendWritten t =>
    simp only [AegisPairing.next]
    split
    · split <;> exact ⟨rfl, rfl⟩
    · exact ⟨rfl, rfl⟩
  | backendRead t n =>
    simp only [AegisPairing.next]
    split
    · split <;> exact ⟨rfl, rfl⟩
    · exact ⟨rfl, rfl⟩
  | clientWritten t =>
    simp only [AegisPairing.next]
    split <;> exact ⟨rfl, rfl⟩

theorem mapped_step {replies : List Reply} (h : Mapped s.db replies) {n : ℕ} {k : Fin n}
    {e : AegisPairing.Event} (hhealthy : Healthy (.core k e)) :
    ∃ more, (AegisPairing.next s e).replies = s.replies ++ more ∧
      Mapped (AegisPairing.next s e).db (replies ++ more) := by
  by_cases hhandle : ∃ p m env, e = .handle p m env
  · obtain ⟨p, m, env, rfl⟩ := hhandle
    obtain ⟨t, rfl⟩ := hhealthy
    exact mapped_handle h p m t
  · obtain ⟨hdb, hreplies⟩ := store_frame s fun p m env he => hhandle ⟨p, m, env, he⟩
    refine ⟨[], ?_, ?_⟩
    · rw [hreplies, List.append_nil]
    · rwa [hdb, List.append_nil]

theorem mapped_boot {fs : FileSystem} (hempty : fs.read DB_PATH = []) :
    ∃ db₀, boot fs = some db₀ ∧ Mapped db₀ [] := by
  have hlog : fs.read DB_PATH = ChronosLogFormat.encodeLog [] := hempty
  obtain ⟨db₀, hboot, hcarries⟩ := boot_carries hlog (by simp)
  refine ⟨db₀, hboot, ?_, ?_, fun _ => ⟨[], hcarries⟩⟩
  · intro k
    simp only [commands, List.filterMap_nil, List.reverse_nil]
    rw [hcarries.map]
    rfl
  · intro before r after hsplit
    simp at hsplit

theorem Mapped.restarts {db : Db} {replies : List Reply} (h : Mapped db replies)
    (hfree : ∀ c ∈ commands replies, CommaFree c) : ∃ db', boot db.fs = some db' ∧
      ∀ k, answer (db'.engine.get k) = reference live (commands replies).reverse (.get k) := by
  obtain ⟨rs, hcarries⟩ := h.carried hfree
  obtain ⟨db', hboot, hcarries'⟩ := hcarries.reboot
  refine ⟨db', hboot, fun k => ?_⟩
  rw [Engine.get, hcarries'.map, ← hcarries.map, answer_visible, h.agrees k]
  rfl

theorem reply_of_received {t : ℕ} (h : Paired s) (hreceived : (s.client t).received ≠ none) :
    ∃ r, repliesTo s t = [r] ∧ r.raw = (s.client t).request ∧
      (s.client t).received = some (encode r.response) := by
  obtain ⟨bytes, hbytes⟩ := Option.ne_none_iff_exists'.1 hreceived
  obtain ⟨response, hreplies, rfl⟩ := h.own t bytes hbytes
  exact ⟨_, hreplies, rfl, hbytes⟩

section Front

variable {n : ℕ} {s : Front n}

theorem linked_system {k : Fin n} (h : AegisPairing.Linked (s.core k)) :
    AegisPairing.Linked (s.system k) :=
  ⟨h.guarded, h.ownership, h.fresh, h.pooled, h.task, h.sent⟩

structure Shared (s : Front n) : Prop where
  linked : ∀ k, AegisPairing.Linked (s.core k)
  part : ∀ k, (s.core k).replies = (s.history.filter fun r => r.1 = some k).map Prod.snd

theorem shared_opened (db : Db) : Shared (opened n db) :=
  ⟨fun _ => linked_start db, fun _ => rfl⟩

theorem replies_grow (s : System) (e : AegisPairing.Event) :
    ∃ more, (AegisPairing.next s e).replies = s.replies ++ more := by
  by_cases hhandle : ∃ p m env, e = .handle p m env
  · obtain ⟨p, m, env, rfl⟩ := hhandle
    by_cases hm : 0 < m ∧ m ≤ min 512 (s.pipe p).up.length ∧ (s.pipe p).dead = false
    · obtain ⟨db, pipe, rs, hstep, _⟩ := handle_turn env hm
      refine ⟨rs, ?_⟩
      simp only [AegisPairing.next, hstep]
      rfl
    · refine ⟨[], ?_⟩
      simp only [AegisPairing.next, System.handle, if_neg hm, List.append_nil]
  · refine ⟨[], ?_⟩
    rw [(store_frame s fun p m env he => hhandle ⟨p, m, env, he⟩).2, List.append_nil]

theorem next_core (s : Front n) (k : Fin n) (e : AegisPairing.Event) :
    ∃ more, (AegisPairing.next (s.system k) e).replies = (s.core k).replies ++ more ∧
      next s (.core k e) = ⟨Function.update s.core k (AegisPairing.next (s.system k) e),
        (AegisPairing.next (s.system k) e).db, s.history ++ more.map fun r => (some k, r)⟩ := by
  obtain ⟨more, hmore⟩ := replies_grow (s.system k) e
  have hreplies : (s.system k).replies = (s.core k).replies := rfl
  rw [hreplies] at hmore
  refine ⟨more, hmore, ?_⟩
  simp only [next, hmore, List.drop_left]

theorem shared_core (h : Shared s) {k : Fin n} {e : AegisPairing.Event}
    (hwhole : Whole s (.core k e)) : Shared (next s (.core k e)) := by
  obtain ⟨more, hmore, hnext⟩ := next_core s k e
  rw [hnext]
  constructor
  · intro l
    by_cases hl : l = k
    · subst hl
      simp only [Function.update_self]
      exact linked_next (linked_system (h.linked l)) hwhole
    · simp only [Function.update_of_ne hl]
      exact h.linked l
  · intro l
    by_cases hl : l = k
    · subst hl
      simp only [Function.update_self, hmore, List.filter_append, List.map_append, h.part l]
      simp [List.filter_map, Function.comp_def]
    · have hother : (more.map fun r => (some k, r)).filter (fun r => r.1 = some l) = [] := by
        simp [List.filter_map, Function.comp_def, Ne.symm hl]
      simp only [Function.update_of_ne hl, List.filter_append, hother, List.append_nil]
      exact h.part l

theorem shared_next (h : Shared s) {e : Event n} (hwhole : Whole s e) : Shared (next s e) := by
  cases e with
  | core k e => exact shared_core h hwhole
  | direct client env raw =>
    simp only [next]
    rcases handleMessage s.db env raw with ⟨db, _ | response⟩
    · exact h
    · refine ⟨h.linked, fun k => ?_⟩
      rw [h.part k, List.filter_append]
      simp

theorem mapped_next (h : Mapped s.db (s.history.map Prod.snd)) {e : Event n}
    (hhealthy : Healthy e) : Mapped (next s e).db ((next s e).history.map Prod.snd) := by
  cases e with
  | core k e =>
    have hsystem : Mapped (s.system k).db (s.history.map Prod.snd) := h
    obtain ⟨more, hmore, hmapped⟩ := mapped_step hsystem hhealthy
    have hreplies : (s.system k).replies = (s.core k).replies := rfl
    simp only [next, hmore, hreplies, List.drop_left, List.map_append, List.map_map]
    have hsnd : more.map (Prod.snd ∘ fun r => (some k, r)) = more := List.map_id more
    rw [hsnd]
    exact hmapped
  | direct client env raw =>
    obtain ⟨t, rfl⟩ := hhealthy
    have hhandled := h.handled t client raw
    simp only [next]
    generalize handleMessage s.db (healthy t) raw = outcome at hhandled ⊢
    obtain ⟨db, _ | response⟩ := outcome
    · exact h
    · rw [List.map_append]
      exact hhandled

theorem history_next (s : Front n) (e : Event n) : s.history <+: (next s e).history := by
  cases e with
  | core k e =>
    obtain ⟨more, _, hnext⟩ := next_core s k e
    rw [hnext]
    exact List.prefix_append _ _
  | direct client env raw =>
    simp only [next]
    rcases handleMessage s.db env raw with ⟨db, _ | response⟩
    · exact List.prefix_rfl
    · exact List.prefix_append _ _

theorem Shared.repliesFor_eq (h : Shared s) (k : Fin n) (t : ℕ) :
    repliesFor s k t = (repliesTo (s.core k) t).map fun r => (some k, r) := by
  rw [repliesTo, h.part k, List.filter_map, List.map_map, List.filter_filter, repliesFor]
  have hkeep : ∀ r ∈ s.history.filter (fun r => r.1 = some k ∧ r.2.task = t),
      ((fun r => (some k, r)) ∘ Prod.snd) r = r := by
    rintro ⟨source, r⟩ hr
    have hsource := (List.mem_filter.1 hr).2
    obtain ⟨rfl, _⟩ : source = some k ∧ r.task = t := by simpa using hsource
    rfl
  have hsame : s.history.filter (fun r => r.1 = some k ∧ r.2.task = t) = s.history.filter fun r =>
      ((fun r => decide (r.task = t)) ∘ Prod.snd) r && decide (r.1 = some k) := by
    apply List.filter_congr
    intro r _
    simp [and_comm]
  rw [hsame] at hkeep ⊢
  exact ((List.map_congr_left hkeep).trans (List.map_id _)).symm

theorem repliesBefore_of_came_later {s₁ : Front n} (hearlier : s₁.history <+: s.history)
    {k l : Fin n} {t u : ℕ} {r r' : Option (Fin n) × Reply} (ht : repliesFor s₁ k t = [r])
    (hnone : repliesFor s₁ l u = []) (hu : repliesFor s l u = [r']) : RepliesBefore s k t l u := by
  obtain ⟨rest, hrest⟩ := hearlier
  have hr : r ∈ repliesFor s₁ k t := by rw [ht]; exact List.mem_singleton_self r
  obtain ⟨hmem, htask⟩ := List.mem_filter.1 hr
  obtain ⟨before, between, hsplit⟩ := List.append_of_mem hmem
  have hlater : rest.filter (fun q => q.1 = some l ∧ q.2.task = u) = [r'] := by
    rw [repliesFor, ← hrest, List.filter_append] at hu
    rw [repliesFor] at hnone
    rwa [hnone, List.nil_append] at hu
  have hr' : r' ∈ rest.filter fun q => q.1 = some l ∧ q.2.task = u := by
    rw [hlater]
    exact List.mem_singleton_self r'
  obtain ⟨hmem', htask'⟩ := List.mem_filter.1 hr'
  obtain ⟨between', after, hsplit'⟩ := List.append_of_mem hmem'
  obtain ⟨source, r⟩ := r
  obtain ⟨source', r'⟩ := r'
  obtain ⟨rfl, rfl⟩ : source = some k ∧ r.task = t := by simpa using htask
  obtain ⟨rfl, rfl⟩ : source' = some l ∧ r'.task = u := by simpa using htask'
  refine ⟨before, r, between ++ between', r', after, ?_, rfl, rfl⟩
  rw [← hrest, hsplit, hsplit']
  simp

theorem Shared.reply_of_received (h : Shared s) {k : Fin n} {t : ℕ}
    (hreceived : ((s.core k).client t).received ≠ none) :
    ∃ r, repliesFor s k t = [(some k, r)] ∧ r.raw = ((s.core k).client t).request ∧
      ((s.core k).client t).received = some (encode r.response) := by
  obtain ⟨r, hr, hraw, hresponse⟩ :=
    AegisKeyValue.reply_of_received (h.linked k).paired hreceived
  exact ⟨r, by rw [h.repliesFor_eq, hr]; rfl, hraw, hresponse⟩

theorem shared_run {db₀ : Db} {es : List (Event n)} (h : StepsMeet next Whole (opened n db₀) es) :
    Shared (run next (opened n db₀) es) :=
  run_preserves_of_steps (P := Shared) (fun _ _ h hc => shared_next h hc) (shared_opened db₀) h

theorem history_run (s : Front n) (es : List (Event n)) :
    s.history <+: (run next s es).history :=
  run_preserves (P := fun s' : Front n => s.history <+: s'.history)
    (fun s' e h => h.trans (history_next s' e)) List.prefix_rfl es

end Front

/-- While the reads take all that was sent, the clients of all cores and those of Chronos itself use
one map. The history is in order of execution, since Chronos drops its lock before it writes the
reply: the replies are those of a map which executes the requests in that order, every client of a
core that has a response has the one reply to its request, and a client that came to any core after
another had its response has its request executed later. If no key has a comma, a restart finds the
map as the history left it. -/
theorem proxied_clients_linearize (n : ℕ) (fs : FileSystem) (hempty : fs.read DB_PATH = [])
    (es : List (Event n)) : ∃ db₀, boot fs = some db₀ ∧
      (StepsMeet next (fun s e => Whole s e ∧ Healthy e) (opened n db₀) es →
        let s := run next (opened n db₀) es
        Serial (s.history.map Prod.snd) ∧
        (∀ k t, ((s.core k).client t).received ≠ none → ∃ r, repliesFor s k t = [(some k, r)] ∧
          r.raw = ((s.core k).client t).request ∧
          ((s.core k).client t).received = some (encode r.response)) ∧
        (∀ as, as <+: es → ∀ k t l u,
          (((run next (opened n db₀) as).core k).client t).received ≠ none →
          ((run next (opened n db₀) as).core l).core.tasks u = .absent →
          ((s.core l).client u).received ≠ none → RepliesBefore s k t l u) ∧
        ((∀ c ∈ commands (s.history.map Prod.snd), CommaFree c) → ∃ db', boot s.db.fs = some db' ∧
          ∀ k, answer (db'.engine.get k) =
            reference live (commands (s.history.map Prod.snd)).reverse (.get k))) := by
  obtain ⟨db₀, hboot, hmapped⟩ := mapped_boot hempty
  refine ⟨db₀, hboot, fun hmeet => ?_⟩
  intro s
  have hwhole : StepsMeet next Whole (opened n db₀) es := hmeet.mono fun _ _ hc => hc.1
  have hend : Mapped s.db (s.history.map Prod.snd) :=
    run_preserves_of_steps (P := fun s : Front n => Mapped s.db (s.history.map Prod.snd))
      (fun _ _ h hc => mapped_next h hc.2) hmapped hmeet
  have hshared : Shared s := shared_run hwhole
  refine ⟨hend.serial, fun k t => hshared.reply_of_received, ?_, hend.restarts⟩
  rintro as ⟨bs, rfl⟩ k t l u hreceived habsent hlater
  have hearly : Shared (run next (opened n db₀) as) := shared_run (stepsMeet_append.1 hwhole).1
  have huntouched := (hearly.linked l).task u
  rw [TaskOk, habsent] at huntouched
  obtain ⟨r, hr, _⟩ := hearly.reply_of_received hreceived
  obtain ⟨r', hr', _⟩ := hshared.reply_of_received hlater
  have hnone : repliesFor (run next (opened n db₀) as) l u = [] := by
    rw [hearly.repliesFor_eq, huntouched.1]
    rfl
  refine repliesBefore_of_came_later ?_ hr hnone hr'
  rw [show s = run next (run next (opened n db₀) as) bs from run_append _ _ _ _]
  exact history_run _ bs

def setRequest : Request := ⟨encode "SET k v\n".toList, by decide, by decide⟩

def oneCore : Fin 2 := ⟨0, Nat.zero_lt_two⟩

def otherCore : Fin 2 := ⟨1, Nat.one_lt_two⟩

/-- A client of one core sets a key, one of another core reads it, and Chronos's own client deletes
it in between. -/
def setThenGet (t : Traversal Text Text) : List (Event 2) :=
  [.core oneCore (.accept setRequest), .core oneCore (.start 0), .core oneCore (.connect 0),
    .core oneCore (.clientRead 0 8), .core oneCore (.transmit 0 8),
    .core oneCore (.backendWritten 0), .core oneCore (.handle 0 8 (healthy t)),
    .core oneCore (.backendRead 0 3), .core oneCore (.clientWritten 0),
    .direct 0 (healthy t) (encode "DEL k\n".toList),
    .core otherCore (.accept getRequest), .core otherCore (.start 0), .core otherCore (.connect 0),
    .core otherCore (.clientRead 0 6), .core otherCore (.transmit 0 6),
    .core otherCore (.backendWritten 0), .core otherCore (.handle 0 6 (healthy t)),
    .core otherCore (.backendRead 0 5), .core otherCore (.clientWritten 0)]

theorem proxied_clients_linearize_set_then_get :
    ∃ db₀, boot emptyFileSystem = some db₀ ∧
      (let es := setThenGet someTraversal
      let s := run next (opened 2 db₀) es
      Serial (s.history.map Prod.snd) ∧
      (∀ k t, ((s.core k).client t).received ≠ none → ∃ r, repliesFor s k t = [(some k, r)] ∧
        r.raw = ((s.core k).client t).request ∧
        ((s.core k).client t).received = some (encode r.response)) ∧
      (∀ as, as <+: es → ∀ k t l u,
        (((run next (opened 2 db₀) as).core k).client t).received ≠ none →
        ((run next (opened 2 db₀) as).core l).core.tasks u = .absent →
        ((s.core l).client u).received ≠ none → RepliesBefore s k t l u) ∧
      ((∀ c ∈ commands (s.history.map Prod.snd), CommaFree c) → ∃ db', boot s.db.fs = some db' ∧
        ∀ k, answer (db'.engine.get k) =
          reference live (commands (s.history.map Prod.snd)).reverse (.get k))) := by
  obtain ⟨db₀, hboot, h⟩ := proxied_clients_linearize 2 emptyFileSystem rfl
    (setThenGet someTraversal)
  refine ⟨db₀, hboot, h ?_⟩
  cases hboot
  have hhealthy : ∃ t, healthy someTraversal = healthy t := ⟨someTraversal, rfl⟩
  simp only [setThenGet, stepsMeet_cons, stepsMeet_nil]
  refine ⟨⟨trivial, trivial⟩, ⟨trivial, trivial⟩, ⟨trivial, trivial⟩, ⟨?_, trivial⟩,
    ⟨trivial, trivial⟩, ⟨trivial, trivial⟩, ⟨?_, hhealthy⟩, ⟨?_, trivial⟩, ⟨trivial, trivial⟩,
    ⟨trivial, hhealthy⟩, ⟨trivial, trivial⟩, ⟨trivial, trivial⟩, ⟨trivial, trivial⟩,
    ⟨?_, trivial⟩, ⟨trivial, trivial⟩, ⟨trivial, trivial⟩, ⟨?_, hhealthy⟩, ⟨?_, trivial⟩,
    ⟨trivial, trivial⟩, trivial⟩
  · intro buf p ht
    cases ht
    rfl
  · intro t ht _
    rcases t with _ | t
    · decide
    · cases ht
  · intro buf p ht
    cases ht
    decide
  · intro buf p ht
    cases ht
    rfl
  · intro t ht _
    rcases t with _ | t
    · decide
    · cases ht
  · intro buf p ht
    cases ht
    decide

end AegisKeyValue
