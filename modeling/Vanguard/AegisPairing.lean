import Vanguard.AegisOwnership
import Vanguard.ChronosServer

/-! A core of AEGIS in front of Chronos. The clients of a core share its connections, and on
each connection a handler of Chronos answers read by read. TCP delivers bytes in order, in
pieces of any size. -/
namespace AegisPairing

open Utf8Text FileSystems StateMachines RefCells AegisCore AegisBorrows AegisOwnership
open ChronosStore ChronosServer

/-- What a client sends: as much as one read of AEGIS accepts. -/
structure Request where
  bytes : Bytes
  nonempty : bytes ≠ []
  bound : bytes.length ≤ BUFFER_SIZE

/-- A connection to Chronos: the bytes on their way to the handler, those on their way back,
the task that wrote last, and whether the handler has ended. -/
structure Pipe where
  up : Bytes
  down : Bytes
  sender : ℕ
  dead : Bool

/-- A client: its request, what its task has still to write to Chronos, and the response that
AEGIS wrote to it. -/
structure Client where
  request : Bytes
  pending : Bytes
  received : Option Bytes

/-- An answer of a handler: the bytes it read, and the task that wrote last on its pipe. -/
structure Reply where
  task : ℕ
  raw : Bytes
  response : Text
  deriving DecidableEq

structure System where
  core : Core
  db : Db
  client : ℕ → Client
  pipe : ℕ → Pipe
  made : ℕ
  replies : List Reply

def start (db : Db) : System where
  core := initial
  db := db
  client := fun _ => ⟨[], [], none⟩
  pipe := fun _ => ⟨[], [], 0, false⟩
  made := 0
  replies := []

/-- The parties' steps. Every number is how many bytes one call takes or passes on. -/
inductive Event where
  | accept (request : Request)
  | start (t : ℕ)
  | connect (t : ℕ)
  | clientRead (t n : ℕ)
  | transmit (t n : ℕ)
  | backendWritten (t : ℕ)
  | handle (p n : ℕ) (env : Environment)
  | backendRead (t n : ℕ)
  | clientWritten (t : ℕ)
  | fails (t : ℕ)

def chunk (data : Bytes) (n : ℕ) : Chunk where
  bytes := data.take (min n BUFFER_SIZE)
  bound := by
    rw [List.length_take]
    omega

def System.setPipe (s : System) (p : ℕ) (pipe : Pipe) : System :=
  { s with pipe := Function.update s.pipe p pipe }

def System.setClient (s : System) (t : ℕ) (client : Client) : System :=
  { s with client := Function.update s.client t client }

def System.resume (s : System) (e : AegisCore.Event) : System :=
  { s with core := AegisCore.next s.core e }

/-- One turn of the loop of `handle_client`, with a buffer of 512 bytes. A panic of the parser
closes the connection. -/
def System.handle (s : System) (p n : ℕ) (env : Environment) : System :=
  let pipe := s.pipe p
  if 0 < n ∧ n ≤ min 512 pipe.up.length ∧ pipe.dead = false then
    let raw := pipe.up.take n
    match handleMessage s.db env raw with
    | (_, none) => s.setPipe p { pipe with up := pipe.up.drop n, dead := true }
    | (db, some response) =>
      let s : System := { s with db := db, replies := s.replies ++ [⟨pipe.sender, raw, response⟩] }
      s.setPipe p { pipe with up := pipe.up.drop n, down := pipe.down ++ encode response }
  else s

/-- The failure of what a task awaits, its write to the client apart. -/
def failure (t : ℕ) : Task → AegisCore.Event
  | .connecting _ => .connected t none
  | .writingBackend _ _ => .backendWritten t false
  | .readingBackend _ _ => .backendRead t none
  | _ => .clientRead t none

def next (s : System) : Event → System
  | .accept request =>
    (s.setClient s.core.accepted ⟨request.bytes, [], none⟩).resume .accept
  | .start t => s.resume (.start t)
  | .connect t =>
    match s.core.tasks t with
    | .connecting _ => { s with made := s.made + 1 }.resume (.connected t (some s.made))
    | _ => s
  | .clientRead t n =>
    let client := s.client t
    match s.core.tasks t with
    | .readingClient buf _ =>
      if 0 < n ∧ n ≤ min BUFFER_SIZE client.request.length then
        let read := chunk client.request n
        (s.setClient t { client with pending := readInto buf read }).resume
          (.clientRead t (some read))
      else s
    | _ => s
  | .transmit t n =>
    let client := s.client t
    match s.core.tasks t with
    | .writingBackend _ p =>
      let pipe := s.pipe p
      if 0 < n ∧ n ≤ client.pending.length then
        (s.setClient t { client with pending := client.pending.drop n }).setPipe p
          { pipe with up := pipe.up ++ client.pending.take n, sender := t }
      else s
    | _ => s
  | .backendWritten t =>
    match s.core.tasks t with
    | .writingBackend _ _ =>
      if (s.client t).pending = [] then s.resume (.backendWritten t true) else s
    | _ => s
  | .handle p n env => s.handle p n env
  | .backendRead t n =>
    match s.core.tasks t with
    | .readingBackend _ p =>
      let pipe := s.pipe p
      if n ≤ min BUFFER_SIZE pipe.down.length ∧ (0 < n ∨ pipe.dead = true ∧ pipe.down = []) then
        (s.setPipe p { pipe with down := pipe.down.drop n }).resume
          (.backendRead t (some (chunk pipe.down n)))
      else s
    | _ => s
  | .clientWritten t =>
    match s.core.tasks t with
    | .writingClient buf _ =>
      (s.setClient t { s.client t with received := some buf }).resume (.clientWritten t true)
    | _ => s
  | .fails t => s.resume (failure t (s.core.tasks t))

def repliesTo (s : System) (t : ℕ) : List Reply := s.replies.filter fun r => r.task = t

def Idle (pipe : Pipe) : Prop := pipe.up = [] ∧ pipe.down = []

/-- Chronos has answered the request of the client as a whole, and once. -/
def AnsweredWhole (s : System) (t : ℕ) (bytes : Bytes) : Prop :=
  ∃ response, repliesTo s t = [⟨t, (s.client t).request, response⟩] ∧ bytes = encode response

/-- Every client was written the response to its own request and nothing else, and no pipe in
the pool has a byte of an earlier request or response on it. -/
structure Paired (s : System) : Prop where
  own : ∀ t bytes, (s.client t).received = some bytes → AnsweredWhole s t bytes
  clean : ∀ p ∈ s.core.connPool.value, Idle (s.pipe p)

/-- The reads take all that was sent: AEGIS the whole request of its client and the whole
response of Chronos, and the handler of a pipe in use the whole request of its task. -/
def Whole (s : System) : Event → Prop
  | .clientRead t n => ∀ buf p, s.core.tasks t = .readingClient buf p →
    n = (s.client t).request.length
  | .handle p n _ => ∀ t, pipeOf (s.core.tasks t) = some p → (s.pipe p).up ≠ [] →
    (s.pipe p).up.take n = (s.client t).request
  | .backendRead t n => ∀ buf p, s.core.tasks t = .readingBackend buf p →
    n = (s.pipe p).down.length
  | _ => True

def Waiting (s : System) (t p : ℕ) : Prop :=
  (s.pipe p).up ++ (s.client t).pending = (s.client t).request ∧ (s.pipe p).down = [] ∧
    repliesTo s t = [] ∧ ((s.pipe p).up ≠ [] → (s.pipe p).sender = t)

def Answered (s : System) (t p : ℕ) : Prop :=
  (s.client t).pending = [] ∧ (s.pipe p).up = [] ∧ AnsweredWhole s t (s.pipe p).down

def Silent (s : System) (t p : ℕ) : Prop :=
  (s.client t).pending = [] ∧ Idle (s.pipe p) ∧ repliesTo s t = []

def Exchanging (s : System) (t p : ℕ) : Prop := Waiting s t p ∨ Answered s t p ∨ Silent s t p

def Untouched (s : System) (t : ℕ) : Prop := repliesTo s t = [] ∧ (s.client t).received = none

/-- How far a task, its client and its pipe have come. -/
def TaskOk (s : System) (t : ℕ) : Prop :=
  match s.core.tasks t with
  | .absent => Untouched s t
  | .spawned => Untouched s t
  | .connecting buf => buf = [] ∧ Untouched s t
  | .readingClient buf p => buf = [] ∧ Idle (s.pipe p) ∧ Untouched s t
  | .writingBackend _ p => (s.client t).received = none ∧ Exchanging s t p
  | .readingBackend buf p => buf = [] ∧ (s.client t).received = none ∧ Exchanging s t p
  | .writingClient buf p =>
    (s.client t).received = none ∧ Idle (s.pipe p) ∧ AnsweredWhole s t buf
  | .finished => ∀ bytes, (s.client t).received = some bytes → AnsweredWhole s t bytes
  | .panicked => ∀ bytes, (s.client t).received = some bytes → AnsweredWhole s t bytes

def Ended : Task → Prop
  | .finished => True
  | .panicked => True
  | _ => False

/-- The last writer of a pipe that has bytes for its handler is at work on it, or has ended
without a response. -/
def Sent (s : System) (p : ℕ) : Prop :=
  pipeOf (s.core.tasks (s.pipe p).sender) = some p ∨
    Ended (s.core.tasks (s.pipe p).sender) ∧ (s.client (s.pipe p).sender).received = none

structure Linked (s : System) : Prop where
  guarded : Guarded s.core
  ownership : Ownership s.core s.made
  fresh : ∀ p, s.made ≤ p → Idle (s.pipe p)
  pooled : ∀ p ∈ s.core.connPool.value, Idle (s.pipe p)
  task : ∀ t, TaskOk s t
  sent : ∀ p, (s.pipe p).up ≠ [] → Sent s p

variable {s s' : System} {t p : ℕ}

theorem linked_start (db : Db) : Linked (start db) := by
  constructor
  · exact guarded_initial
  · exact ownership_initial
  · exact fun _ _ => ⟨rfl, rfl⟩
  · intro p hp
    cases hp
  · exact fun _ => ⟨rfl, rfl⟩
  · intro p hp
    exact absurd rfl hp

theorem TaskOk.frame (h : TaskOk s t) (htask : s'.core.tasks t = s.core.tasks t)
    (hclient : s'.client t = s.client t) (hreplies : repliesTo s' t = repliesTo s t)
    (hpipe : ∀ p, pipeOf (s.core.tasks t) = some p → s'.pipe p = s.pipe p) : TaskOk s' t := by
  unfold TaskOk at h ⊢
  rw [htask]
  cases hk : s.core.tasks t with
  | readingClient buf p =>
    have hp := hpipe p (by rw [hk]; rfl)
    simp only [hk] at h
    simpa only [Untouched, hp, hclient, hreplies] using h
  | writingBackend buf p =>
    have hp := hpipe p (by rw [hk]; rfl)
    simp only [hk] at h
    simpa only [Exchanging, Waiting, Answered, Silent, AnsweredWhole, hp, hclient, hreplies] using h
  | readingBackend buf p =>
    have hp := hpipe p (by rw [hk]; rfl)
    simp only [hk] at h
    simpa only [Exchanging, Waiting, Answered, Silent, AnsweredWhole, hp, hclient, hreplies] using h
  | writingClient buf p =>
    have hp := hpipe p (by rw [hk]; rfl)
    simp only [hk] at h
    simpa only [AnsweredWhole, hp, hclient, hreplies] using h
  | _ =>
    simp only [hk] at h
    simpa only [Untouched, AnsweredWhole, hclient, hreplies] using h

theorem Linked.sender_of_owner (h : Linked s) (hown : pipeOf (s.core.tasks t) = some p)
    (hp : (s.pipe p).up ≠ []) : (s.pipe p).sender = t := by
  have hwaiting : ∀ q, Exchanging s t q → (s.pipe q).up ≠ [] → (s.pipe q).sender = t := by
    rintro q (⟨_, _, _, hsender⟩ | ⟨_, hup, _⟩ | ⟨_, hidle, _⟩) hq
    · exact hsender hq
    · exact absurd hup hq
    · exact absurd hidle.1 hq
  have htask := h.task t
  rw [TaskOk] at htask
  cases hk : s.core.tasks t with
  | readingClient buf q =>
    rw [hk] at htask hown
    cases hown
    exact absurd htask.2.1.1 hp
  | writingBackend buf q =>
    rw [hk] at htask hown
    cases hown
    exact hwaiting p htask.2 hp
  | readingBackend buf q =>
    rw [hk] at htask hown
    cases hown
    exact hwaiting p htask.2.2 hp
  | writingClient buf q =>
    rw [hk] at htask hown
    cases hown
    exact absurd htask.2.1.1 hp
  | _ =>
    rw [hk] at hown
    cases hown

theorem Linked.sender_eq (h : Linked s) (hp : (s.pipe p).up ≠ [])
    (hor : (s.pipe p).sender = t ∨ pipeOf (s.core.tasks t) = some p) : (s.pipe p).sender = t := by
  rcases hor with hsender | hown
  · exact hsender
  · exact h.sender_of_owner hown hp

theorem Linked.owner_eq (h : Linked s) (hp : (s.pipe p).up ≠ [])
    (hended : ¬ Ended (s.core.tasks t))
    (hor : (s.pipe p).sender = t ∨ pipeOf (s.core.tasks t) = some p) :
    pipeOf (s.core.tasks t) = some p := by
  rcases hor with hsender | hown
  · subst hsender
    rcases h.sent p hp with hown | ⟨hend, _⟩
    · exact hown
    · exact absurd hend hended
  · exact hown

/-- A step of one task, which touches no pipe but its own, keeps the invariant if it does so for
that task. -/
theorem Linked.step (h : Linked s) (hguarded : Guarded s'.core)
    (hownership : Ownership s'.core s'.made) (hmade : s.made ≤ s'.made)
    (hothers : ∀ u, u ≠ t → s'.core.tasks u = s.core.tasks u ∧ s'.client u = s.client u)
    (hreplies : s'.replies = s.replies)
    (hpipes : ∀ p, pipeOf (s.core.tasks t) ≠ some p → s'.pipe p = s.pipe p)
    (hpooled : ∀ p ∈ s'.core.connPool.value, p ∉ s.core.connPool.value → Idle (s'.pipe p))
    (htask : TaskOk s' t)
    (hsent : ∀ p, (s'.pipe p).up ≠ [] →
      (s'.pipe p).sender = t ∨ pipeOf (s.core.tasks t) = some p → Sent s' p) : Linked s' := by
  constructor
  · exact hguarded
  · exact hownership
  · intro p hp
    have hfree : pipeOf (s.core.tasks t) ≠ some p := by
      intro hown
      have := h.ownership.owned_made t p hown
      omega
    rw [hpipes p hfree]
    exact h.fresh p (hmade.trans hp)
  · intro p hp
    by_cases hold : p ∈ s.core.connPool.value
    · rw [hpipes p fun hown => h.ownership.apart t p hown hold]
      exact h.pooled p hold
    · exact hpooled p hp hold
  · intro u
    by_cases hu : u = t
    · subst hu
      exact htask
    · obtain ⟨htasks, hclient⟩ := hothers u hu
      apply (h.task u).frame htasks hclient
      · rw [repliesTo, repliesTo, hreplies]
      · intro p hp
        apply hpipes
        intro hown
        exact hu (h.ownership.single u t p hp hown)
  · intro p hp
    by_cases hown : pipeOf (s.core.tasks t) = some p
    · exact hsent p hp (Or.inr hown)
    · by_cases hsender : (s'.pipe p).sender = t
      · exact hsent p hp (Or.inl hsender)
      · obtain ⟨htasks, hclient⟩ := hothers _ hsender
        rw [hpipes p hown] at hp htasks hclient
        have hold := h.sent p hp
        rwa [Sent, hpipes p hown, htasks, hclient]

theorem Linked.resumed (h : Linked s) {e : AegisCore.Event} {task : Task}
    (hcore : s'.core = AegisCore.next s.core e) (hmade : s'.made = s.made)
    (hnew : ∀ u pipe, e ≠ .connected u (some pipe))
    (htasks : (AegisCore.next s.core e).tasks = Function.update s.core.tasks t task)
    (hclients : ∀ u, u ≠ t → s'.client u = s.client u) (hreplies : s'.replies = s.replies)
    (hpipes : ∀ p, pipeOf (s.core.tasks t) ≠ some p → s'.pipe p = s.pipe p)
    (hpooled : ∀ p ∈ s'.core.connPool.value, p ∉ s.core.connPool.value → Idle (s'.pipe p))
    (htask : TaskOk s' t)
    (hsent : ∀ p, (s'.pipe p).up ≠ [] →
      (s'.pipe p).sender = t ∨ pipeOf (s.core.tasks t) = some p → Sent s' p) : Linked s' := by
  have hguarded : Guarded s'.core := by
    rw [hcore]
    exact (step_ok h.guarded e).guarded
  have hownership : Ownership s'.core s'.made := by
    rw [hcore, hmade]
    exact h.ownership.next h.guarded le_rfl fun u pipe he => absurd he (hnew u pipe)
  apply h.step hguarded hownership hmade.ge _ hreplies hpipes hpooled htask hsent
  intro u hu
  rw [hcore, htasks, Function.update_of_ne hu]
  exact ⟨rfl, hclients u hu⟩

theorem Linked.resume (h : Linked s) {e : AegisCore.Event} {task : Task}
    (hnew : ∀ u pipe, e ≠ .connected u (some pipe))
    (htasks : (AegisCore.next s.core e).tasks = Function.update s.core.tasks t task)
    (hpool : ∀ p ∈ (AegisCore.next s.core e).connPool.value, p ∈ s.core.connPool.value)
    (htask : TaskOk (s.resume e) t)
    (hsent : ∀ p, (s.pipe p).up ≠ [] →
      (s.pipe p).sender = t ∨ pipeOf (s.core.tasks t) = some p → Sent (s.resume e) p) :
    Linked (s.resume e) := by
  have hcore : (s.resume e).core = AegisCore.next s.core e := rfl
  apply h.resumed hcore rfl hnew htasks (fun _ _ => rfl) rfl (fun _ _ => rfl) _ htask hsent
  intro p hp hold
  exact absurd (hpool p hp) hold

theorem Linked.not_sender (h : Linked s) (hended : ¬ Ended (s.core.tasks t))
    (hidle : ∀ q, pipeOf (s.core.tasks t) = some q → Idle (s.pipe q)) (hp : (s.pipe p).up ≠ []) :
    ¬ ((s.pipe p).sender = t ∨ pipeOf (s.core.tasks t) = some p) := by
  intro hor
  exact hp (hidle p (h.owner_eq hp hended hor)).1

theorem linked_accept (h : Linked s) (request : Request) : Linked (next s (.accept request)) := by
  have habsent := h.guarded.absent s.core.accepted le_rfl
  have htasks : (next s (.accept request)).core.tasks =
      Function.update s.core.tasks s.core.accepted .spawned := rfl
  have hclient : (next s (.accept request)).client =
      Function.update s.client s.core.accepted ⟨request.bytes, [], none⟩ := rfl
  have hended : ¬ Ended (s.core.tasks s.core.accepted) := by simp [habsent, Ended]
  have hidle : ∀ q, pipeOf (s.core.tasks s.core.accepted) = some q → Idle (s.pipe q) := by
    simp [habsent, pipeOf]
  have hreplies : repliesTo s s.core.accepted = [] := by
    have := h.task s.core.accepted
    rw [TaskOk, habsent] at this
    exact this.1
  have hcore : (next s (.accept request)).core = AegisCore.next s.core .accept := rfl
  apply h.resumed (t := s.core.accepted) hcore rfl (by simp) htasks
  · intro u hu
    rw [hclient, Function.update_of_ne hu]
  · rfl
  · intro p _
    rfl
  · intro p hp hold
    exact absurd hp hold
  · have htask := congrFun htasks s.core.accepted
    rw [Function.update_self] at htask
    have hnew := congrFun hclient s.core.accepted
    rw [Function.update_self] at hnew
    rw [TaskOk, htask]
    refine ⟨hreplies, ?_⟩
    rw [hnew]
  · intro p hp hor
    exact absurd hor (h.not_sender hended hidle hp)

theorem resume_of_eq {e : AegisCore.Event} (h : AegisCore.next s.core e = s.core) :
    s.resume e = s := by
  rw [System.resume, h]

theorem linked_start_task (h : Linked s) (t : ℕ) : Linked (s.resume (.start t)) := by
  by_cases ht : s.core.tasks t = .spawned
  · have hnext : AegisCore.next s.core (.start t) = s.core.start t := by
      rw [AegisCore.next, ht]
    have huntouched : Untouched s t := by
      have := h.task t
      rwa [TaskOk, ht] at this
    have hended : ¬ Ended (s.core.tasks t) := by simp [ht, Ended]
    have hidle : ∀ q, pipeOf (s.core.tasks t) = some q → Idle (s.pipe q) := by simp [ht, pipeOf]
    have hsent : ∀ p, (s.pipe p).up ≠ [] →
        (s.pipe p).sender = t ∨ pipeOf (s.core.tasks t) = some p → Sent (s.resume (.start t)) p :=
      fun p hp hor => absurd hor (h.not_sender hended hidle hp)
    have hnew : ∀ u pipe, AegisCore.Event.start t ≠ .connected u (some pipe) := by simp
    rcases h.guarded.connPool with ⟨hflag, _⟩ | ⟨hflag, _⟩
    · cases hv : s.core.connPool.value with
      | nil =>
        rw [start_cold h.guarded.pool hflag hv] at hnext
        have htasks : (AegisCore.next s.core (.start t)).tasks =
            Function.update s.core.tasks t (.connecting []) := by rw [hnext]; rfl
        apply h.resume hnew htasks _ _ hsent
        · rw [hnext, hv]
          exact fun p hp => hp
        · simp only [TaskOk, System.resume, htasks, Function.update_self]
          exact ⟨trivial, huntouched⟩
      | cons pipe rest =>
        have hpooled : Idle (s.pipe pipe) := by
          apply h.pooled
          rw [hv]
          exact List.mem_cons_self
        rw [start_hot h.guarded.pool hflag hv] at hnext
        have htasks : (AegisCore.next s.core (.start t)).tasks =
            Function.update s.core.tasks t (.readingClient [] pipe) := by rw [hnext]; rfl
        apply h.resume hnew htasks _ _ hsent
        · rw [hnext, hv]
          exact fun p hp => List.mem_cons_of_mem _ hp
        · simp only [TaskOk, System.resume, htasks, Function.update_self]
          exact ⟨trivial, hpooled, huntouched⟩
    · rw [start_guarded h.guarded.pool hflag] at hnext
      have htasks : (AegisCore.next s.core (.start t)).tasks =
          Function.update s.core.tasks t .panicked := by rw [hnext]; rfl
      apply h.resume hnew htasks _ _ hsent
      · rw [hnext]
        exact fun p hp => hp
      · simp only [TaskOk, System.resume, htasks, Function.update_self]
        intro bytes hbytes
        exact absurd (huntouched.2.symm.trans hbytes) (by simp)
  · have hnext : AegisCore.next s.core (.start t) = s.core := by
      cases hk : s.core.tasks t with
      | spawned => exact absurd hk ht
      | _ => simp only [AegisCore.next, hk]
    rw [resume_of_eq hnext]
    exact h

theorem linked_giveBack (h : Linked s) {e : AegisCore.Event} {buf : Buffer}
    (hnew : ∀ u pipe, e ≠ .connected u (some pipe))
    (htasks : (AegisCore.next s.core e).tasks = (s.core.giveBack t buf).tasks)
    (hpool : (AegisCore.next s.core e).connPool.value = s.core.connPool.value)
    (hreceived : (s.client t).received = none) : Linked (s.resume e) := by
  rw [giveBack_eq h.guarded.pool, tasks_leave] at htasks
  apply h.resume hnew htasks
  · rw [hpool]
    exact fun p hp => hp
  · simp only [TaskOk, System.resume, htasks, Function.update_self]
    intro bytes hbytes
    exact absurd (hreceived.symm.trans hbytes) (by simp)
  · intro p hp hor
    right
    rw [System.resume, h.sender_eq hp hor, htasks, Function.update_self]
    exact ⟨trivial, hreceived⟩

theorem linked_connect (h : Linked s) {buf : Buffer} (ht : s.core.tasks t = .connecting buf) :
    Linked (next s (.connect t)) := by
  have hstep : next s (.connect t) =
      { s with made := s.made + 1 }.resume (.connected t (some s.made)) := by rw [next, ht]
  have hnext : AegisCore.next s.core (.connected t (some s.made)) =
      s.core.connected t buf (some s.made) := by rw [AegisCore.next, ht]
  have htasks : (AegisCore.next s.core (.connected t (some s.made))).tasks =
      Function.update s.core.tasks t (.readingClient buf s.made) := by rw [hnext]; rfl
  have hended : ¬ Ended (s.core.tasks t) := by simp [ht, Ended]
  have hidle : ∀ q, pipeOf (s.core.tasks t) = some q → Idle (s.pipe q) := by simp [ht, pipeOf]
  obtain ⟨hbuf, huntouched⟩ : buf = [] ∧ Untouched s t := by
    have := h.task t
    rwa [TaskOk, ht] at this
  have hownership :
      Ownership (AegisCore.next s.core (.connected t (some s.made))) (s.made + 1) := by
    apply h.ownership.next h.guarded (Nat.le_succ _)
    intro u pipe he
    cases he
    exact ⟨le_rfl, Nat.lt_succ_self _⟩
  have hguarded : Guarded (AegisCore.next s.core (.connected t (some s.made))) :=
    (step_ok h.guarded _).guarded
  rw [hstep]
  refine h.step (t := t) hguarded hownership (Nat.le_succ _) ?_ rfl
    (fun _ _ => rfl) ?_ ?_ ?_
  · intro u hu
    refine ⟨?_, rfl⟩
    rw [System.resume, htasks, Function.update_of_ne hu]
  · intro p hp hold
    rw [System.resume, hnext] at hp
    exact absurd hp hold
  · simp only [TaskOk, System.resume, htasks, Function.update_self]
    exact ⟨hbuf, h.fresh _ le_rfl, huntouched⟩
  · intro p hp hor
    exact absurd hor (h.not_sender hended hidle hp)

theorem chunk_whole {data : Bytes} {n : ℕ} (hwhole : n = data.length) (hn : n ≤ BUFFER_SIZE) :
    (chunk data n).bytes = data := by
  subst hwhole
  show data.take (min data.length BUFFER_SIZE) = data
  rw [Nat.min_eq_left hn, List.take_length]

theorem readInto_whole {data : Bytes} {n : ℕ} (hwhole : n = data.length) (hn : n ≤ BUFFER_SIZE) :
    readInto [] (chunk data n) = data := by
  rw [readInto, chunk_whole hwhole hn, List.drop_nil, List.append_nil]

theorem update_other_pipe {pipe : Pipe} {q : ℕ} (hown : pipeOf (s.core.tasks t) = some p)
    (hq : pipeOf (s.core.tasks t) ≠ some q) : Function.update s.pipe p pipe q = s.pipe q := by
  apply Function.update_of_ne
  rintro rfl
  exact hq hown

theorem Linked.own_pipe (h : Linked s) {q : ℕ} (hown : pipeOf (s.core.tasks t) = some p)
    (hended : ¬ Ended (s.core.tasks t)) (hq : (s.pipe q).up ≠ [])
    (hor : (s.pipe q).sender = t ∨ pipeOf (s.core.tasks t) = some q) : q = p :=
  Option.some.inj ((h.owner_eq hq hended hor).symm.trans hown)

theorem linked_clientRead (h : Linked s) {buf : Buffer} {n : ℕ}
    (ht : s.core.tasks t = .readingClient buf p)
    (hn : 0 < n ∧ n ≤ min BUFFER_SIZE (s.client t).request.length)
    (hwhole : n = (s.client t).request.length) : Linked (next s (.clientRead t n)) := by
  obtain ⟨hbuf, hidle, hreplies, hreceived⟩ : buf = [] ∧ Idle (s.pipe p) ∧ Untouched s t := by
    have := h.task t
    rwa [TaskOk, ht] at this
  subst hbuf
  have hbytes := chunk_whole hwhole (by omega)
  have hread := readInto_whole hwhole (by omega)
  have hstep : next s (.clientRead t n) =
      (s.setClient t { s.client t with pending := (s.client t).request }).resume
        (.clientRead t (some (chunk (s.client t).request n))) := by
    simp only [next, ht, if_pos hn, hread]
  have hpos : 0 < (chunk (s.client t).request n).bytes.length := by
    rw [hbytes]
    omega
  have hnext : AegisCore.next s.core (.clientRead t (some (chunk (s.client t).request n))) =
      { s.core with totalBytes := s.core.totalBytes +
          (chunk (s.client t).request n).bytes.length }.setTask t
        (.writingBackend (s.client t).request p) := by
    simp only [AegisCore.next, ht, Core.clientRead, if_pos hpos, hread]
  have htasks : (AegisCore.next s.core
      (.clientRead t (some (chunk (s.client t).request n)))).tasks =
      Function.update s.core.tasks t (.writingBackend (s.client t).request p) := by rw [hnext]; rfl
  have hended : ¬ Ended (s.core.tasks t) := by simp [ht, Ended]
  have hown : ∀ q, pipeOf (s.core.tasks t) = some q → Idle (s.pipe q) := by
    intro q hq
    rw [ht] at hq
    cases hq
    exact hidle
  have hnew : ∀ u pipe, AegisCore.Event.clientRead t (some (chunk (s.client t).request n)) ≠
      .connected u (some pipe) := by simp
  rw [hstep]
  refine h.resumed (t := t) rfl rfl hnew htasks ?_ rfl (fun _ _ => rfl) ?_ ?_ ?_
  · intro u hu
    exact Function.update_of_ne hu _ _
  · intro q hq hold
    simp only [System.resume, System.setClient, hnext] at hq
    exact absurd hq hold
  · simp only [TaskOk, System.resume, System.setClient, htasks, Function.update_self]
    refine ⟨hreceived, Or.inl ⟨?_, hidle.2, hreplies, fun hup => absurd hidle.1 hup⟩⟩
    simp [hidle.1]
  · intro q hq hor
    exact absurd hor (h.not_sender hended hown hq)

theorem linked_transmit (h : Linked s) {buf : Buffer} {n : ℕ}
    (ht : s.core.tasks t = .writingBackend buf p)
    (hn : 0 < n ∧ n ≤ (s.client t).pending.length) : Linked (next s (.transmit t n)) := by
  obtain ⟨hreceived, hexchanging⟩ : (s.client t).received = none ∧ Exchanging s t p := by
    have := h.task t
    rwa [TaskOk, ht] at this
  have hpending : (s.client t).pending ≠ [] := by
    intro hnil
    rw [hnil] at hn
    exact absurd hn.2 (Nat.not_le.mpr hn.1)
  obtain ⟨hrequest, hdown, hreplies, _⟩ : Waiting s t p := by
    rcases hexchanging with hwaiting | ⟨hnil, _⟩ | ⟨hnil, _⟩
    · exact hwaiting
    · exact absurd hnil hpending
    · exact absurd hnil hpending
  have hstep : next s (.transmit t n) =
      (s.setClient t { s.client t with pending := (s.client t).pending.drop n }).setPipe p
        { s.pipe p with up := (s.pipe p).up ++ (s.client t).pending.take n, sender := t } := by
    simp only [next, ht, if_pos hn]
  have hown : pipeOf (s.core.tasks t) = some p := by rw [ht]; rfl
  rw [hstep]
  refine h.step (t := t) h.guarded h.ownership le_rfl ?_ rfl ?_ ?_ ?_ ?_
  · intro u hu
    exact ⟨rfl, Function.update_of_ne hu _ _⟩
  · exact fun q hq => update_other_pipe hown hq
  · intro q hq hold
    exact absurd hq hold
  · simp only [TaskOk, System.setPipe, System.setClient, ht, Exchanging, Waiting, repliesTo,
      Function.update_self]
    refine ⟨hreceived, Or.inl ⟨?_, hdown, hreplies, fun _ => trivial⟩⟩
    rw [List.append_assoc, List.take_append_drop]
    exact hrequest
  · intro q hq hor
    left
    by_cases hqp : q = p
    · subst hqp
      simp only [System.setPipe, System.setClient, Function.update_self]
      exact hown
    · simp only [System.setPipe, System.setClient, Function.update_of_ne hqp] at hq hor ⊢
      have hended : ¬ Ended (s.core.tasks t) := by simp [ht, Ended]
      rw [h.sender_eq hq hor]
      exact h.owner_eq hq hended hor

theorem linked_backendWritten (h : Linked s) {buf : Buffer}
    (ht : s.core.tasks t = .writingBackend buf p) :
    Linked (s.resume (.backendWritten t true)) := by
  obtain ⟨hreceived, hexchanging⟩ : (s.client t).received = none ∧ Exchanging s t p := by
    have := h.task t
    rwa [TaskOk, ht] at this
  have hnext : AegisCore.next s.core (.backendWritten t true) =
      s.core.setTask t (.readingBackend [] p) := by
    simp only [AegisCore.next, ht]
    rfl
  have htasks : (AegisCore.next s.core (.backendWritten t true)).tasks =
      Function.update s.core.tasks t (.readingBackend [] p) := by rw [hnext]; rfl
  have hown : pipeOf (s.core.tasks t) = some p := by rw [ht]; rfl
  have hnew : ∀ u pipe, AegisCore.Event.backendWritten t true ≠ .connected u (some pipe) :=
    by simp
  apply h.resume hnew htasks
  · rw [hnext]
    exact fun p hp => hp
  · simp only [TaskOk, System.resume, htasks, Function.update_self]
    exact ⟨trivial, hreceived, hexchanging⟩
  · intro q hq hor
    have hended : ¬ Ended (s.core.tasks t) := by simp [ht, Ended]
    obtain rfl := h.own_pipe hown hended hq hor
    left
    simp only [System.resume, h.sender_eq hq hor, htasks, Function.update_self]
    rfl

theorem Linked.drained (h : Linked s) (hown : pipeOf (s.core.tasks t) = some p)
    {e : AegisCore.Event} {task : Task} (hnew : ∀ u pipe, e ≠ .connected u (some pipe))
    (htasks : (AegisCore.next s.core e).tasks = Function.update s.core.tasks t task)
    (hpool : (AegisCore.next s.core e).connPool = s.core.connPool)
    (htask : TaskOk ((s.setPipe p { s.pipe p with down := [] }).resume e) t)
    (hsent : ∀ q, (s.pipe q).up ≠ [] →
      (s.pipe q).sender = t ∨ pipeOf (s.core.tasks t) = some q →
      Sent ((s.setPipe p { s.pipe p with down := [] }).resume e) q) :
    Linked ((s.setPipe p { s.pipe p with down := [] }).resume e) := by
  have hunread : ∀ q, (Function.update s.pipe p { s.pipe p with down := [] } q).up =
        (s.pipe q).up ∧
      (Function.update s.pipe p { s.pipe p with down := [] } q).sender = (s.pipe q).sender := by
    intro q
    by_cases hqp : q = p
    · subst hqp
      rw [Function.update_self]
      exact ⟨rfl, rfl⟩
    · rw [Function.update_of_ne hqp]
      exact ⟨rfl, rfl⟩
  refine h.resumed (t := t) rfl rfl hnew htasks (fun _ _ => rfl) rfl
    (fun q hq => update_other_pipe hown hq) ?_ htask ?_
  · intro q hq hold
    simp only [System.resume, System.setPipe, hpool] at hq
    exact absurd hq hold
  · intro q hq hor
    simp only [System.resume, System.setPipe, hunread] at hq hor
    exact hsent q hq hor

theorem linked_backendRead (h : Linked s) {buf : Buffer} {n : ℕ}
    (ht : s.core.tasks t = .readingBackend buf p)
    (hn : n ≤ min BUFFER_SIZE (s.pipe p).down.length ∧
      (0 < n ∨ (s.pipe p).dead = true ∧ (s.pipe p).down = []))
    (hwhole : n = (s.pipe p).down.length) : Linked (next s (.backendRead t n)) := by
  obtain ⟨hbuf, hreceived, hexchanging⟩ :
      buf = [] ∧ (s.client t).received = none ∧ Exchanging s t p := by
    have := h.task t
    rwa [TaskOk, ht] at this
  subst hbuf
  have hown : pipeOf (s.core.tasks t) = some p := by rw [ht]; rfl
  have hended : ¬ Ended (s.core.tasks t) := by simp [ht, Ended]
  have hbytes := chunk_whole hwhole (by omega)
  have hread := readInto_whole hwhole (by omega)
  have hrest : (s.pipe p).down.drop n = [] := by
    rw [hwhole, List.drop_length]
  have hstep : next s (.backendRead t n) =
      (s.setPipe p { s.pipe p with down := [] }).resume
        (.backendRead t (some (chunk (s.pipe p).down n))) := by
    simp only [next, ht, if_pos hn, hrest]
  have hnew : ∀ u pipe, AegisCore.Event.backendRead t (some (chunk (s.pipe p).down n)) ≠
      .connected u (some pipe) := by simp
  rw [hstep]
  rcases Nat.eq_zero_or_pos n with hzero | hpos
  · -- The handler has ended without an answer.
    have hlength : ¬ 0 < (chunk (s.pipe p).down n).bytes.length := by
      rw [hbytes, ← hwhole]
      omega
    have hnext : AegisCore.next s.core (.backendRead t (some (chunk (s.pipe p).down n))) =
        s.core.giveBack t [] := by
      simp only [AegisCore.next, ht, Core.backendRead, if_neg hlength, clear]
    rw [giveBack_eq h.guarded.pool] at hnext
    have htasks : (AegisCore.next s.core
        (.backendRead t (some (chunk (s.pipe p).down n)))).tasks =
        Function.update s.core.tasks t .finished := by rw [hnext]; rfl
    apply h.drained hown hnew htasks (by rw [hnext]; rfl)
    · simp only [TaskOk, System.resume, System.setPipe, htasks, Function.update_self]
      intro bytes hb
      exact absurd (hreceived.symm.trans hb) (by simp)
    · intro q hq hor
      obtain rfl := h.own_pipe hown hended hq hor
      right
      simp only [System.resume, System.setPipe, Function.update_self, h.sender_eq hq hor, htasks]
      exact ⟨trivial, hreceived⟩
  · have hdown : (s.pipe p).down ≠ [] := by
      intro hnil
      rw [hnil] at hwhole
      exact absurd hwhole (Nat.ne_of_gt hpos)
    obtain ⟨_, hup, hanswered⟩ : Answered s t p := by
      rcases hexchanging with ⟨_, hnil, _⟩ | hanswered | ⟨_, hidle, _⟩
      · exact absurd hnil hdown
      · exact hanswered
      · exact absurd hidle.2 hdown
    have hlength : 0 < (chunk (s.pipe p).down n).bytes.length := by
      rw [hbytes, ← hwhole]
      exact hpos
    have hnext : AegisCore.next s.core (.backendRead t (some (chunk (s.pipe p).down n))) =
        { s.core with totalBytes := s.core.totalBytes +
            (chunk (s.pipe p).down n).bytes.length }.setTask t
          (.writingClient (s.pipe p).down p) := by
      simp only [AegisCore.next, ht, Core.backendRead, if_pos hlength, hread]
    have htasks : (AegisCore.next s.core
        (.backendRead t (some (chunk (s.pipe p).down n)))).tasks =
        Function.update s.core.tasks t (.writingClient (s.pipe p).down p) := by rw [hnext]; rfl
    apply h.drained hown hnew htasks (by rw [hnext]; rfl)
    · simp only [TaskOk, System.resume, System.setPipe, htasks, Function.update_self]
      exact ⟨hreceived, ⟨hup, rfl⟩, hanswered⟩
    · intro q hq hor
      obtain rfl := h.own_pipe hown hended hq hor
      exact absurd hup hq

theorem linked_clientWritten (h : Linked s) {buf : Buffer}
    (ht : s.core.tasks t = .writingClient buf p) : Linked (next s (.clientWritten t)) := by
  obtain ⟨_, hidle, hanswered⟩ :
      (s.client t).received = none ∧ Idle (s.pipe p) ∧ AnsweredWhole s t buf := by
    have := h.task t
    rwa [TaskOk, ht] at this
  have hstep : next s (.clientWritten t) =
      (s.setClient t { s.client t with received := some buf }).resume
        (.clientWritten t true) := by rw [next, ht]
  have hnext : AegisCore.next s.core (.clientWritten t true) =
      s.core.clientWritten t buf p := by rw [AegisCore.next, ht]
  have hended : ¬ Ended (s.core.tasks t) := by simp [ht, Ended]
  have hown : ∀ q, pipeOf (s.core.tasks t) = some q → Idle (s.pipe q) := by
    intro q hq
    rw [ht] at hq
    cases hq
    exact hidle
  have hnew : ∀ u pipe, AegisCore.Event.clientWritten t true ≠ .connected u (some pipe) :=
    by simp
  obtain ⟨task, htasks, htask, hpool⟩ : ∃ task,
      (AegisCore.next s.core (.clientWritten t true)).tasks =
        Function.update s.core.tasks t task ∧ (task = .finished ∨ task = .panicked) ∧
      ∀ q ∈ (AegisCore.next s.core (.clientWritten t true)).connPool.value,
        q ∉ s.core.connPool.value → q = p := by
    rw [hnext]
    rcases h.guarded.connPool with ⟨hflag, _⟩ | ⟨hflag, _⟩
    · by_cases hroom : s.core.connPool.value.length < MAX_HOT_PIPES
      · rw [clientWritten_room h.guarded.pool hflag hroom]
        refine ⟨_, rfl, Or.inl rfl, ?_⟩
        intro q hq hold
        rcases List.mem_append.mp hq with hq | hq
        · exact absurd hq hold
        · exact List.mem_singleton.mp hq
      · rw [clientWritten_full h.guarded.pool hflag hroom]
        exact ⟨_, rfl, Or.inl rfl, fun q hq hold => absurd hq hold⟩
    · rw [clientWritten_guarded h.guarded.pool hflag]
      exact ⟨_, rfl, Or.inr rfl, fun q hq hold => absurd hq hold⟩
  rw [hstep]
  refine h.resumed (t := t) rfl rfl hnew htasks ?_ rfl (fun _ _ => rfl) ?_ ?_ ?_
  · intro u hu
    exact Function.update_of_ne hu _ _
  · intro q hq hold
    rw [hpool q hq hold]
    exact hidle
  · have hfinal : ∀ bytes, some buf = some bytes → AnsweredWhole s t bytes := by
      intro bytes hb
      cases hb
      exact hanswered
    rcases htask with rfl | rfl
    · simpa only [TaskOk, System.resume, System.setClient, htasks, Function.update_self,
        AnsweredWhole, repliesTo] using hfinal
    · simpa only [TaskOk, System.resume, System.setClient, htasks, Function.update_self,
        AnsweredWhole, repliesTo] using hfinal
  · intro q hq hor
    exact absurd hor (h.not_sender hended hown hq)

structure Turn (pipe pipe' : Pipe) (n : ℕ) (rs : List Reply) : Prop where
  up : pipe'.up = pipe.up.drop n
  sender : pipe'.sender = pipe.sender
  answer : rs = [] ∧ pipe'.down = pipe.down ∨
    ∃ response, rs = [⟨pipe.sender, pipe.up.take n, response⟩] ∧
      pipe'.down = pipe.down ++ encode response

theorem handle_turn {n : ℕ} (env : Environment)
    (hn : 0 < n ∧ n ≤ min 512 (s.pipe p).up.length ∧ (s.pipe p).dead = false) :
    ∃ db pipe' rs, s.handle p n env =
        ({ s with db := db, replies := s.replies ++ rs } : System).setPipe p pipe' ∧
      Turn (s.pipe p) pipe' n rs := by
  rw [System.handle, if_pos hn]
  rcases hm : handleMessage s.db env ((s.pipe p).up.take n) with ⟨db, response⟩
  cases response with
  | none =>
    refine ⟨s.db, { s.pipe p with up := (s.pipe p).up.drop n, dead := true }, [], ?_,
      rfl, rfl, Or.inl ⟨rfl, rfl⟩⟩
    simp only [hm, List.append_nil]
  | some response =>
    refine ⟨db, { s.pipe p with
        up := (s.pipe p).up.drop n
        down := (s.pipe p).down ++ encode response }, _, ?_, rfl, rfl,
      Or.inr ⟨response, rfl, rfl⟩⟩
    simp only [hm]

theorem Waiting.handled (hw : Waiting s t p) {n : ℕ}
    (htake : (s.pipe p).up.take n = (s.client t).request) (hsender : (s.pipe p).sender = t)
    {s' : System} {rs : List Reply} (hclient : s'.client = s.client)
    (hreplies : s'.replies = s.replies ++ rs) (hturn : Turn (s.pipe p) (s'.pipe p) n rs) :
    Exchanging s' t p := by
  obtain ⟨hrequest, hdown, hnone, _⟩ := hw
  have hall : (s.pipe p).up.take n = (s.pipe p).up ++ (s.client t).pending := by
    rw [htake, hrequest]
  have hlength := congrArg List.length hall
  rw [List.length_take, List.length_append] at hlength
  have hpending : (s.client t).pending = [] := List.eq_nil_of_length_eq_zero (by omega)
  have hrest : (s'.pipe p).up = [] := by
    rw [hturn.up]
    exact List.drop_eq_nil_of_le (by omega)
  have hold : s.replies.filter (fun r => r.task = t) = [] := hnone
  right
  rcases hturn.answer with ⟨rfl, hd⟩ | ⟨response, rfl, hd⟩
  · right
    rw [Silent, hclient, repliesTo, hreplies, List.append_nil, Idle, hd]
    exact ⟨hpending, ⟨hrest, hdown⟩, hnone⟩
  · left
    rw [Answered, hclient]
    refine ⟨hpending, hrest, response, ?_, ?_⟩
    · rw [repliesTo, hreplies, List.filter_append, hold, hclient, hsender, htake]
      simp
    · rw [hd, hdown, List.nil_append]

theorem taskOk_sender (h : Linked s) {s' : System} (hcore : s'.core = s.core)
    (hclient : s'.client = s.client) (hunread : (s.pipe p).up ≠ [])
    (hhandled : Waiting s (s.pipe p).sender p →
      pipeOf (s.core.tasks (s.pipe p).sender) = some p → Exchanging s' (s.pipe p).sender p) :
    TaskOk s' (s.pipe p).sender := by
  have htask := h.task (s.pipe p).sender
  have hsent := h.sent p hunread
  have hwaiting : Exchanging s (s.pipe p).sender p → Waiting s (s.pipe p).sender p := by
    rintro (hw | ⟨_, hnil, _⟩ | ⟨_, hidle, _⟩)
    · exact hw
    · exact absurd hnil hunread
    · exact absurd hidle.1 hunread
  rw [Sent] at hsent
  rw [TaskOk] at htask ⊢
  rw [hcore, hclient]
  cases hk : s.core.tasks (s.pipe p).sender with
  | readingClient buf q =>
    simp only [hk, pipeOf, Ended, false_and, or_false] at htask hsent
    cases hsent
    exact absurd htask.2.1.1 hunread
  | writingBackend buf q =>
    simp only [hk, pipeOf, Ended, false_and, or_false] at htask hsent
    cases hsent
    exact ⟨htask.1, hhandled (hwaiting htask.2) (by rw [hk]; rfl)⟩
  | readingBackend buf q =>
    simp only [hk, pipeOf, Ended, false_and, or_false] at htask hsent
    cases hsent
    exact ⟨htask.1, htask.2.1, hhandled (hwaiting htask.2.2) (by rw [hk]; rfl)⟩
  | writingClient buf q =>
    simp only [hk, pipeOf, Ended, false_and, or_false] at htask hsent
    cases hsent
    exact absurd htask.2.1.1 hunread
  | finished =>
    simp only [hk, pipeOf, reduceCtorEq, false_or] at hsent
    intro bytes hb
    exact absurd (hsent.2.symm.trans hb) (by simp)
  | panicked =>
    simp only [hk, pipeOf, reduceCtorEq, false_or] at hsent
    intro bytes hb
    exact absurd (hsent.2.symm.trans hb) (by simp)
  | _ => simp [hk, pipeOf, Ended] at hsent

theorem linked_handle (h : Linked s) {n : ℕ} {env : Environment}
    (hn : 0 < n ∧ n ≤ min 512 (s.pipe p).up.length ∧ (s.pipe p).dead = false)
    (hwhole : ∀ t, pipeOf (s.core.tasks t) = some p → (s.pipe p).up ≠ [] →
      (s.pipe p).up.take n = (s.client t).request) : Linked (s.handle p n env) := by
  obtain ⟨db, pipe, rs, hstep, hturn⟩ := handle_turn env hn
  have hunread : (s.pipe p).up ≠ [] := by
    intro hnil
    rw [hnil, List.length_nil] at hn
    omega
  have hother : ∀ q, Idle (s.pipe q) → q ≠ p := by
    intro q hidle he
    rw [he] at hidle
    exact hunread hidle.1
  rw [hstep]
  have hpipes : ∀ q, q ≠ p → Function.update s.pipe p pipe q = s.pipe q := fun q hq =>
    Function.update_of_ne hq _ _
  constructor
  · exact h.guarded
  · exact h.ownership
  · intro q hq
    have hidle := h.fresh q hq
    show Idle (Function.update s.pipe p pipe q)
    rwa [hpipes q (hother q hidle)]
  · intro q hq
    have hidle := h.pooled q hq
    show Idle (Function.update s.pipe p pipe q)
    rwa [hpipes q (hother q hidle)]
  · intro u
    by_cases hu : (s.pipe p).sender = u
    · subst hu
      refine taskOk_sender h ?_ ?_ hunread ?_
      · rfl
      · rfl
      · intro hw hown
        have hturn' : Turn (s.pipe p) (Function.update s.pipe p pipe p) n rs := by
          rwa [Function.update_self]
        exact hw.handled (hwhole _ hown hunread) rfl rfl rfl hturn'
    · have hreplies : (s.replies ++ rs).filter (fun r => r.task = u) =
          s.replies.filter fun r => r.task = u := by
        rcases hturn.answer with ⟨rfl, _⟩ | ⟨response, rfl, _⟩
        · rw [List.append_nil]
        · rw [List.filter_append]
          simp [hu]
      refine (h.task u).frame ?_ ?_ hreplies ?_
      · rfl
      · rfl
      · intro q hown
        apply hpipes
        intro he
        subst he
        exact hu (h.sender_of_owner hown hunread)
  · intro q hq
    by_cases hqp : q = p
    · subst hqp
      have hsent := h.sent q hunread
      simpa only [Sent, System.setPipe, Function.update_self, hturn.sender] using hsent
    · simp only [System.setPipe, Function.update_of_ne hqp] at hq
      have hsent := h.sent q hq
      simpa only [Sent, System.setPipe, Function.update_of_ne hqp] using hsent

theorem Linked.ended (h : Linked s) {e : AegisCore.Event} {buf : Buffer}
    (hnew : ∀ u pipe, e ≠ .connected u (some pipe))
    (hnext : AegisCore.next s.core e = s.core.giveBack t buf)
    (hreceived : (s.client t).received = none) : Linked (s.resume e) := by
  have htasks : (AegisCore.next s.core e).tasks = (s.core.giveBack t buf).tasks := by rw [hnext]
  have hpool : (AegisCore.next s.core e).connPool.value = s.core.connPool.value := by
    rw [hnext, giveBack_eq h.guarded.pool]
    rfl
  exact linked_giveBack h hnew htasks hpool hreceived

theorem failure_ne (t : ℕ) (task : Task) (u pipe : ℕ) :
    failure t task ≠ .connected u (some pipe) := by
  cases task <;> simp [failure]

theorem linked_fails (h : Linked s) (t : ℕ) : Linked (next s (.fails t)) := by
  have htask := h.task t
  rw [TaskOk] at htask
  rw [next]
  cases ht : s.core.tasks t with
  | connecting buf =>
    rw [ht] at htask
    have hnext : AegisCore.next s.core (.connected t none) = s.core.connected t buf none := by
      rw [AegisCore.next, ht]
    have htasks : (AegisCore.next s.core (.connected t none)).tasks =
        (s.core.giveBack t buf).tasks := by rw [hnext, Core.connected]
    -- The guard of the connection pool goes as well.
    have hpool : (AegisCore.next s.core (.connected t none)).connPool.value =
        s.core.connPool.value := by
      rw [hnext, Core.connected, giveBack_eq h.guarded.pool]
      rfl
    exact linked_giveBack h (failure_ne t (.connecting buf)) htasks hpool htask.2.2
  | readingClient buf p =>
    rw [ht] at htask
    have hnext : AegisCore.next s.core (.clientRead t none) = s.core.giveBack t (clear buf) := by
      rw [AegisCore.next, ht]
      rfl
    exact h.ended (failure_ne t _) hnext htask.2.2.2
  | writingBackend buf p =>
    rw [ht] at htask
    have hnext : AegisCore.next s.core (.backendWritten t false) =
        s.core.giveBack t (clear buf) := by
      rw [AegisCore.next, ht]
      rfl
    exact h.ended (failure_ne t _) hnext htask.1
  | readingBackend buf p =>
    rw [ht] at htask
    have hnext : AegisCore.next s.core (.backendRead t none) = s.core.giveBack t (clear buf) := by
      rw [AegisCore.next, ht]
      rfl
    exact h.ended (failure_ne t _) hnext htask.2.1
  | _ =>
    have hnext : AegisCore.next s.core (.clientRead t none) = s.core := by
      rw [AegisCore.next, ht]
    rw [failure, resume_of_eq hnext]
    · exact h
    all_goals simp

theorem linked_next (h : Linked s) {e : Event} (hw : Whole s e) : Linked (next s e) := by
  cases e with
  | accept request => exact linked_accept h request
  | start t => exact linked_start_task h t
  | connect t =>
    cases ht : s.core.tasks t with
    | connecting buf => exact linked_connect h ht
    | _ =>
      rw [next, ht]
      exact h
  | clientRead t n =>
    cases ht : s.core.tasks t with
    | readingClient buf p =>
      by_cases hn : 0 < n ∧ n ≤ min BUFFER_SIZE (s.client t).request.length
      · exact linked_clientRead h ht hn (hw buf p ht)
      · simp only [next, ht, if_neg hn]
        exact h
    | _ =>
      simp only [next, ht]
      exact h
  | transmit t n =>
    cases ht : s.core.tasks t with
    | writingBackend buf p =>
      by_cases hn : 0 < n ∧ n ≤ (s.client t).pending.length
      · exact linked_transmit h ht hn
      · simp only [next, ht, if_neg hn]
        exact h
    | _ =>
      simp only [next, ht]
      exact h
  | backendWritten t =>
    cases ht : s.core.tasks t with
    | writingBackend buf p =>
      by_cases hn : (s.client t).pending = []
      · simp only [next, ht, if_pos hn]
        exact linked_backendWritten h ht
      · simp only [next, ht, if_neg hn]
        exact h
    | _ =>
      simp only [next, ht]
      exact h
  | handle p n env =>
    by_cases hn : 0 < n ∧ n ≤ min 512 (s.pipe p).up.length ∧ (s.pipe p).dead = false
    · exact linked_handle h hn hw
    · simp only [next, System.handle, if_neg hn]
      exact h
  | backendRead t n =>
    cases ht : s.core.tasks t with
    | readingBackend buf p =>
      by_cases hn : n ≤ min BUFFER_SIZE (s.pipe p).down.length ∧
          (0 < n ∨ (s.pipe p).dead = true ∧ (s.pipe p).down = [])
      · exact linked_backendRead h ht hn (hw buf p ht)
      · simp only [next, ht, if_neg hn]
        exact h
    | _ =>
      simp only [next, ht]
      exact h
  | clientWritten t =>
    cases ht : s.core.tasks t with
    | writingClient buf p => exact linked_clientWritten h ht
    | _ =>
      simp only [next, ht]
      exact h
  | fails t => exact linked_fails h t

theorem Linked.paired (h : Linked s) : Paired s := by
  refine ⟨?_, h.pooled⟩
  intro t bytes hb
  have htask := h.task t
  have hnone : (s.client t).received ≠ none := by
    simp [hb]
  rw [TaskOk] at htask
  cases ht : s.core.tasks t with
  | absent => simp only [ht, Untouched] at htask; exact absurd htask.2 hnone
  | spawned => simp only [ht, Untouched] at htask; exact absurd htask.2 hnone
  | connecting buf => simp only [ht, Untouched] at htask; exact absurd htask.2.2 hnone
  | readingClient buf p => simp only [ht, Untouched] at htask; exact absurd htask.2.2.2 hnone
  | writingBackend buf p => simp only [ht] at htask; exact absurd htask.1 hnone
  | readingBackend buf p => simp only [ht] at htask; exact absurd htask.2.1 hnone
  | writingClient buf p => simp only [ht] at htask; exact absurd htask.1 hnone
  | finished =>
    rw [ht] at htask
    exact htask bytes hb
  | panicked =>
    rw [ht] at htask
    exact htask bytes hb

/-- Every response goes to its client if every read takes all that was sent. -/
theorem whole_reads_pair_responses (db : Db) (es : List Event)
    (hw : StepsMeet next Whole (start db) es) : Paired (run next (start db) es) := by
  have hlinked : Linked (run next (start db) es) :=
    run_preserves_of_steps (P := Linked) (fun _ _ h hc => linked_next h hc) (linked_start db) hw
  exact hlinked.paired

def pingRequest : Request := ⟨encode "PING\n".toList, by decide, by decide⟩
def twoPings : Request := ⟨encode "PING\nPING\n".toList, by decide, by decide⟩
def getRequest : Request := ⟨encode "GET k\n".toList, by decide, by decide⟩

/-- Two clients on one connection, one after the other. -/
theorem whole_reads_pair_responses_hot_pipe :
    let env := healthy LastWriterMaps.someTraversal
    ∃ db₀, boot emptyFileSystem = some db₀ ∧
      Paired (run next (start db₀) [.accept pingRequest, .accept getRequest, .start 0, .connect 0,
        .clientRead 0 5, .transmit 0 5, .backendWritten 0, .handle 0 5 env, .backendRead 0 5,
        .clientWritten 0, .start 1, .clientRead 1 6, .transmit 1 2, .transmit 1 4,
        .backendWritten 1, .handle 0 6 env, .backendRead 1 5, .clientWritten 1]) := by
  refine ⟨_, rfl, ?_⟩
  apply whole_reads_pair_responses
  simp only [stepsMeet_cons, stepsMeet_nil]
  refine ⟨trivial, trivial, trivial, trivial, ?_, trivial, trivial, ?_, ?_, trivial, trivial, ?_,
    trivial, trivial, trivial, ?_, ?_, trivial, trivial⟩
  · intro buf p ht
    cases ht
    rfl
  · intro t ht _
    rcases t with _ | _ | t
    · decide
    · cases ht
    · cases ht
  · intro buf p ht
    cases ht
    decide
  · intro buf p ht
    cases ht
    rfl
  · intro t ht _
    rcases t with _ | _ | t
    · cases ht
    · decide
    · cases ht
  · intro buf p ht
    cases ht
    decide

/-- Two pings that arrive in two reads have two answers. The task takes the first and gives the
connection back, and the next client is written the second. -/
theorem second_answer_goes_astray :
    let env := healthy LastWriterMaps.someTraversal
    ∃ db₀, boot emptyFileSystem = some db₀ ∧
      (let s := run next (start db₀) [.accept twoPings, .accept getRequest, .start 0, .connect 0,
        .clientRead 0 10, .transmit 0 10, .backendWritten 0, .handle 0 5 env, .backendRead 0 5,
        .clientWritten 0, .handle 0 5 env, .start 1, .clientRead 1 6, .transmit 1 6,
        .backendWritten 1, .backendRead 1 5, .clientWritten 1]
      (s.client 1).received = some (encode "PONG\n".toList) ∧ repliesTo s 1 = [] ∧ ¬ Paired s) := by
  refine ⟨_, rfl, by decide, by decide, ?_⟩
  intro h
  obtain ⟨response, hreplies, _⟩ := h.own 1 (encode "PONG\n".toList) (by decide)
  have hlength := congrArg List.length hreplies
  change _ = 1 at hlength
  exact absurd hlength (by decide)

end AegisPairing
