import Vanguard.AegisMetrics
import Vanguard.AegisOperations

/-! The counters of AEGIS. The cores change them while their tasks run, and the metrics endpoint on
the main thread reads them one at a time. -/
namespace AegisTelemetry

open Utf8Text (Bytes Text)
open StateMachines AegisCore AegisBorrows AegisAccounts AegisOperations
open AegisMetrics (activeConnections totalBytes totalRequests response samples samples_response)

structure Telemetry where
  activeConnections : UInt64
  totalBytes : UInt64
  totalRequests : UInt64
  deriving DecidableEq, Repr

def Telemetry.apply (tele : Telemetry) : Operation → Telemetry
  | .guardNew => { tele with activeConnections := tele.activeConnections + 1 }
  | .addBytes n => { tele with totalBytes := tele.totalBytes + UInt64.ofNat n }
  | .addRequest => { tele with totalRequests := tele.totalRequests + 1 }
  | .guardDrop => { tele with activeConnections := tele.activeConnections - 1 }

/-- Where the main thread is between two of its loads. -/
inductive Scraping where
  | idle
  | connections (conns : UInt64)
  | bytes (conns bytes : UInt64)
  deriving DecidableEq, Repr

/-- `performed` is a ghost observation. -/
structure System (n : ℕ) where
  threads : Fin n → Thread
  tele : Telemetry
  scraping : Scraping
  reports : List Telemetry
  performed : List Operation

def opened (n : ℕ) : System n :=
  ⟨fun _ => ⟨initial, fun _ => [], []⟩, ⟨0, 0, 0⟩, .idle, [], []⟩

inductive Event (n : ℕ) where
  | core (k : Fin n) (e : AegisCore.Event)
  | perform (k : Fin n)
  | scrape

def next {n : ℕ} (s : System n) : Event n → System n
  | .core k e =>
    if (s.threads k).due = [] then
      { s with threads := Function.update s.threads k ((s.threads k).step e) }
    else s
  | .perform k =>
    match (s.threads k).due with
    | [] => s
    | op :: due =>
      { s with
        threads := Function.update s.threads k ((s.threads k).left due)
        tele := s.tele.apply op
        performed := s.performed ++ [op] }
  | .scrape =>
    match s.scraping with
    | .idle => { s with scraping := .connections s.tele.activeConnections }
    | .connections conns => { s with scraping := .bytes conns s.tele.totalBytes }
    | .bytes conns bytes =>
      { s with scraping := .idle, reports := s.reports ++ [⟨conns, bytes, s.tele.totalRequests⟩] }

/-- What the counters show once `ops` have been performed. -/
def shown (ops : List Operation) : Telemetry where
  activeConnections := UInt64.ofNat (total opens ops) - UInt64.ofNat (total closes ops)
  totalBytes := UInt64.ofNat (total bytesOf ops)
  totalRequests := UInt64.ofNat (total requestsOf ops)

theorem shown_snoc (ops : List Operation) (op : Operation) :
    shown (ops ++ [op]) = (shown ops).apply op := by
  cases op with
  | guardNew =>
    simp [shown, Telemetry.apply, total, opens, closes, bytesOf, requestsOf, UInt64.ofNat_add]
    grind
  | addBytes n =>
    simp [shown, Telemetry.apply, total, opens, closes, bytesOf, requestsOf, UInt64.ofNat_add]
  | addRequest =>
    simp [shown, Telemetry.apply, total, opens, closes, bytesOf, requestsOf, UInt64.ofNat_add]
  | guardDrop =>
    simp [shown, Telemetry.apply, total, opens, closes, bytesOf, requestsOf, UInt64.ofNat_add]
    grind

variable {n : ℕ} {s : System n}

def Booked (s : System n) (count : Operation → ℕ) (value : Task → List Bytes → ℕ) : Prop :=
  total count s.performed + ∑ k, total count (s.threads k).due = ∑ k, tally value (s.threads k)

structure Sound (s : System n) : Prop where
  told : ∀ k, Told (s.threads k)
  owes : ∀ k, Owes (s.threads k)
  booked : ∀ count value, Weighs count value → Booked s count value
  tele : s.tele = shown s.performed

theorem sound_opened (n : ℕ) : Sound (opened n) where
  told := fun _ => told_opened
  owes := by
    intro k rest hrest
    obtain rfl := List.suffix_nil.mp hrest
    exact ⟨Nat.zero_le _, Nat.zero_le _, Nat.le_refl _, Nat.le_refl _⟩
  booked := by
    intro count value _
    simp [Booked, opened, total, tally, initial]
  tele := by
    have hzero : (⟨0, 0, 0⟩ : Telemetry) = shown [] := by decide
    exact hzero

theorem forall_update {P : Thread → Prop} (h : ∀ k, P (s.threads k)) {k : Fin n} {th : Thread}
    (hth : P th) (j : Fin n) : P (Function.update s.threads k th j) := by
  by_cases hj : j = k
  · rw [hj, Function.update_self]
    exact hth
  · rw [Function.update_of_ne hj]
    exact h j

theorem sum_update (f : Thread → ℕ) (threads : Fin n → Thread) (k : Fin n) (th : Thread) :
    ∑ j, f (Function.update threads k th j) + f (threads k) = ∑ j, f (threads j) + f th := by
  have hchanged := sum_changed (Finset.mem_univ k) (f := fun j => f (threads j))
    (g := fun j => f (Function.update threads k th j))
    (fun j hj => by rw [Function.update_of_ne hj])
  rwa [Function.update_self] at hchanged

theorem sound_core (h : Sound s) {k : Fin n} (hdue : (s.threads k).due = [])
    (e : AegisCore.Event) : Sound { s with
      threads := Function.update s.threads k ((s.threads k).step e) } where
  told := forall_update h.told (told_step (h.told k) e)
  owes := forall_update h.owes (owes_step (h.told k) e)
  booked := by
    intro count value hweighs
    have hbooked := h.booked count value hweighs
    have hstep := tally_step hweighs (h.told k) e
    have htally := sum_update (tally value) s.threads k ((s.threads k).step e)
    have howed := sum_update (fun th => total count th.due) s.threads k ((s.threads k).step e)
    have hnone : total count (s.threads k).due = 0 := by rw [hdue]; rfl
    simp only [Booked] at hbooked ⊢
    omega
  tele := h.tele

theorem sound_perform (h : Sound s) {k : Fin n} {op : Operation} {due : List Operation}
    (hdue : (s.threads k).due = op :: due) : Sound { s with
      threads := Function.update s.threads k ((s.threads k).left due)
      tele := s.tele.apply op
      performed := s.performed ++ [op] } where
  told := forall_update h.told ⟨(h.told k).guarded, (h.told k).rounds, (h.told k).chunks⟩
  owes := by
    apply forall_update h.owes
    intro rest hrest
    have howed := h.owes k rest (hdue ▸ hrest.trans (List.suffix_cons op due))
    exact ⟨howed.one_opens, howed.one_closes, howed.guards, howed.answers⟩
  booked := by
    intro count value hweighs
    have hbooked := h.booked count value hweighs
    have htally := sum_update (tally value) s.threads k ((s.threads k).left due)
    have hsame : tally value ((s.threads k).left due) = tally value (s.threads k) := rfl
    have howed := sum_update (fun th => total count th.due) s.threads k
      ((s.threads k).left due)
    have hrest : total count ((s.threads k).left due).due = total count due := rfl
    have hless : total count (s.threads k).due = count op + total count due := by
      rw [hdue, total_cons]
    have hmore : total count (s.performed ++ [op]) = total count s.performed + count op := by
      rw [total_append, total_cons]
      rfl
    simp only [Booked] at hbooked ⊢
    omega
  tele := by
    rw [h.tele]
    exact (shown_snoc _ _).symm

theorem sound_next (h : Sound s) (e : Event n) : Sound (next s e) := by
  cases e with
  | core k e =>
    simp only [next]
    split
    · next hdue => exact sound_core h hdue e
    · exact h
  | perform k =>
    simp only [next]
    split
    · exact h
    · next hdue => exact sound_perform h hdue
  | scrape =>
    simp only [next]
    split <;> exact ⟨h.told, h.owes, h.booked, h.tele⟩

structure Snapshot where
  activeConnections : ℕ
  totalBytes : ℕ
  totalRequests : ℕ

def Snapshot.toTelemetry (snapshot : Snapshot) : Telemetry where
  activeConnections := UInt64.ofNat snapshot.activeConnections
  totalBytes := UInt64.ofNat snapshot.totalBytes
  totalRequests := UInt64.ofNat snapshot.totalRequests

def snapshot (s : System n) : Snapshot where
  activeConnections := total opens s.performed - total closes s.performed
  totalBytes := total bytesOf s.performed
  totalRequests := total requestsOf s.performed

theorem sum_owed {f g : Thread → ℕ} (h : ∀ k, f (s.threads k) ≤ g (s.threads k)) :
    ∑ k, f (s.threads k) ≤ ∑ k, g (s.threads k) := Finset.sum_le_sum fun k _ => h k

theorem Sound.closes_le (h : Sound s) : total closes s.performed ≤ total opens s.performed := by
  have hopens := h.booked _ _ weighs_opens
  have hcloses := h.booked _ _ weighs_closes
  have howes := sum_owed (s := s)
    (f := fun th => tally hasEnded th + total opens th.due)
    (g := fun th => tally hasStarted th + total closes th.due)
    fun k => (h.owes k _ List.suffix_rfl).guards
  simp only [Booked, Finset.sum_add_distrib] at hopens hcloses howes
  omega

theorem Sound.answers_le (h : Sound s) :
    2 * total requestsOf s.performed ≤ total bytesOf s.performed := by
  have hbytes := h.booked _ _ weighs_bytes
  have hrequests := h.booked _ _ weighs_requests
  have howes := sum_owed (s := s)
    (f := fun th => 2 * tally wasAnswered th + total bytesOf th.due)
    (g := fun th => tally bytesIn th)
    fun k => (h.owes k _ List.suffix_rfl).answers
  simp only [Booked, Finset.sum_add_distrib, ← Finset.mul_sum] at hbytes hrequests howes
  omega

theorem Sound.tele_eq (h : Sound s) : s.tele = (snapshot s).toTelemetry := by
  have hle := h.closes_le
  have hgauge : UInt64.ofNat (total opens s.performed) - UInt64.ofNat (total closes s.performed) =
      UInt64.ofNat (total opens s.performed - total closes s.performed) := by
    rw [UInt64.ofNat_sub hle]
  rw [h.tele, shown, hgauge]
  rfl

/-- What a later report shows beside an earlier one. -/
def Later (earlier later : Snapshot) : Prop :=
  earlier.totalBytes ≤ later.totalBytes ∧ earlier.totalRequests ≤ later.totalRequests ∧
    2 * earlier.totalRequests ≤ later.totalBytes

def Loaded (s : System n) (reported : List Snapshot) : Scraping → Prop
  | .idle => True
  | .connections conns =>
    ∃ a, conns = UInt64.ofNat a ∧ a ≤ total opens s.performed
  | .bytes conns bytes =>
    (∃ a, conns = UInt64.ofNat a ∧ a ≤ total opens s.performed) ∧
      ∃ b, bytes = UInt64.ofNat b ∧ b ≤ total bytesOf s.performed ∧
        ∀ q ∈ reported, q.totalBytes ≤ b ∧ 2 * q.totalRequests ≤ b

structure Reported (s : System n) (reported : List Snapshot) : Prop where
  reports : s.reports = reported.map Snapshot.toTelemetry
  ordered : reported.Pairwise Later
  bounded : ∀ q ∈ reported, q.activeConnections ≤ total opens s.performed ∧
    q.totalBytes ≤ total bytesOf s.performed ∧ q.totalRequests ≤ total requestsOf s.performed
  loaded : Loaded s reported s.scraping

theorem reported_opened (n : ℕ) : Reported (opened n) [] where
  reports := rfl
  ordered := .nil
  bounded := fun _ h => absurd h List.not_mem_nil
  loaded := trivial

theorem Loaded.grown {s' : System n} {reported : List Snapshot} {scraping : Scraping}
    (h : Loaded s reported scraping) (hopens : total opens s.performed ≤ total opens s'.performed)
    (hbytes : total bytesOf s.performed ≤ total bytesOf s'.performed) :
    Loaded s' reported scraping := by
  cases scraping with
  | idle => trivial
  | connections conns =>
    obtain ⟨a, hconns, ha⟩ := h
    exact ⟨a, hconns, ha.trans hopens⟩
  | bytes conns bytes =>
    obtain ⟨⟨a, hconns, ha⟩, b, hb, hle, hreported⟩ := h
    exact ⟨⟨a, hconns, ha.trans hopens⟩, b, hb, hle.trans hbytes, hreported⟩

theorem Reported.grown {s' : System n} {reported : List Snapshot} (h : Reported s reported)
    (hperformed : s.performed <+: s'.performed) (hreports : s'.reports = s.reports)
    (hscraping : s'.scraping = s.scraping) : Reported s' reported := by
  obtain ⟨more, hmore⟩ := hperformed
  have hgrown : ∀ count, total count s.performed ≤ total count s'.performed := by
    intro count
    rw [← hmore, total_append]
    exact Nat.le_add_right _ _
  constructor
  · exact hreports.trans h.reports
  · exact h.ordered
  · intro q hq
    obtain ⟨hconns, hbytes, hrequests⟩ := h.bounded q hq
    exact ⟨hconns.trans (hgrown _), hbytes.trans (hgrown _), hrequests.trans (hgrown _)⟩
  · rw [hscraping]
    exact h.loaded.grown (hgrown _) (hgrown _)

theorem reported_scrape (hsound : Sound s) {reported : List Snapshot} (h : Reported s reported) :
    ∃ reported', Reported (next s .scrape) reported' := by
  have htele := hsound.tele_eq
  have hloaded := h.loaded
  cases hscraping : s.scraping with
  | idle =>
    refine ⟨reported, ?_⟩
    simp only [next, hscraping]
    refine ⟨h.reports, h.ordered, h.bounded, (snapshot s).activeConnections, ?_, Nat.sub_le _ _⟩
    rw [htele]
    rfl
  | connections conns =>
    rw [hscraping] at hloaded
    refine ⟨reported, ?_⟩
    simp only [next, hscraping]
    refine ⟨h.reports, h.ordered, h.bounded, hloaded, (snapshot s).totalBytes, ?_, le_rfl, ?_⟩
    · rw [htele]
      rfl
    · intro q hq
      obtain ⟨_, hbytes, hrequests⟩ := h.bounded q hq
      have := hsound.answers_le
      exact ⟨hbytes, by simp only [snapshot]; omega⟩
  | bytes conns bytes =>
    rw [hscraping] at hloaded
    obtain ⟨⟨a, rfl, ha⟩, b, rfl, hb, hreported⟩ := hloaded
    refine ⟨reported ++ [⟨a, b, (snapshot s).totalRequests⟩], ?_⟩
    simp only [next, hscraping]
    constructor
    · rw [List.map_append, h.reports, htele]
      rfl
    · rw [List.pairwise_append]
      refine ⟨h.ordered, List.pairwise_singleton _ _, ?_⟩
      intro q hq r hr
      rw [List.mem_singleton] at hr
      subst hr
      exact ⟨(hreported q hq).1, (h.bounded q hq).2.2, (hreported q hq).2⟩
    · intro q hq
      rcases List.mem_append.mp hq with hq | hq
      · exact h.bounded q hq
      · rw [List.mem_singleton] at hq
        subst hq
        exact ⟨ha, hb, le_rfl⟩
    · trivial

theorem reported_next (hsound : Sound s) {reported : List Snapshot} (h : Reported s reported)
    (e : Event n) : ∃ reported', Reported (next s e) reported' := by
  cases e with
  | core k e =>
    refine ⟨reported, ?_⟩
    simp only [next]
    split
    · exact h.grown List.prefix_rfl rfl rfl
    · exact h
  | perform k =>
    refine ⟨reported, ?_⟩
    simp only [next]
    split
    · exact h
    · exact h.grown (List.prefix_append _ _) rfl rfl
  | scrape => exact reported_scrape hsound h

def accepted (s : System n) : ℕ := ∑ k, (s.threads k).core.accepted

/-- The tasks that have run their first step and not yet their last one. -/
def tasksUnderway (s : System n) : ℕ := ∑ k, (unfinished (s.threads k).core).card

def bytesHeard (s : System n) : ℕ :=
  ∑ k, ∑ t ∈ Finset.range (s.threads k).core.accepted, ((s.threads k).heard t).flatten.length

/-- The tasks that ended after they had heard their client and Chronos. -/
def answered (s : System n) : ℕ :=
  ∑ k, ((Finset.range (s.threads k).core.accepted).filter fun t =>
    ended ((s.threads k).core.tasks t) = true ∧ ((s.threads k).heard t).length = 2).card

/-- The cores in the midst of a step. -/
def busy (s : System n) : ℕ := (Finset.univ.filter fun k => (s.threads k).due ≠ []).card

theorem answered_eq (s : System n) : answered s = ∑ k, tally wasAnswered (s.threads k) :=
  Finset.sum_congr rfl fun _ _ => Finset.card_filter _ _

theorem started_eq (th : Thread) :
    tally hasStarted th = (unfinished th.core).card + tally hasEnded th := by
  rw [unfinished, Finset.card_filter, tally, tally, ← Finset.sum_add_distrib]
  apply Finset.sum_congr rfl
  intro t _
  simp only [hasStarted, hasEnded]
  cases th.core.tasks t <;> rfl

theorem started_le_accepted (th : Thread) : tally hasStarted th ≤ th.core.accepted := by
  have hone := Finset.sum_le_card_nsmul (Finset.range th.core.accepted)
    (fun t => hasStarted (th.core.tasks t) (th.heard t)) 1 fun t _ => Bool.toNat_le _
  rw [Finset.card_range, smul_eq_mul, Nat.mul_one] at hone
  exact hone

theorem owed_le_busy (count : Operation → ℕ) (h : ∀ k, total count (s.threads k).due ≤ 1) :
    ∑ k, total count (s.threads k).due ≤ busy s := by
  rw [busy, Finset.card_filter]
  apply Finset.sum_le_sum
  intro k _
  split
  · exact h k
  · next hdue =>
    rw [not_not.mp hdue]
    exact Nat.le_refl 0

theorem Sound.opens_le (h : Sound s) : total opens s.performed ≤ accepted s := by
  have hopens := h.booked _ _ weighs_opens
  have hle := sum_owed (s := s) (f := tally hasStarted) (g := fun th => th.core.accepted)
    fun k => started_le_accepted _
  simp only [Booked] at hopens
  rw [accepted]
  omega

theorem Sound.gauge (h : Sound s) :
    (snapshot s).activeConnections ≤ tasksUnderway s + busy s ∧
      tasksUnderway s ≤ (snapshot s).activeConnections + busy s := by
  have hopens := h.booked _ _ weighs_opens
  have hcloses := h.booked _ _ weighs_closes
  have hle := h.closes_le
  have howed := owed_le_busy (s := s) opens fun k => (h.owes k _ List.suffix_rfl).one_opens
  have howed' := owed_le_busy (s := s) closes fun k => (h.owes k _ List.suffix_rfl).one_closes
  simp only [Booked, started_eq, Finset.sum_add_distrib] at hopens hcloses
  simp only [snapshot, tasksUnderway]
  constructor <;> omega

theorem Sound.bytes_le (h : Sound s) : (snapshot s).totalBytes ≤ bytesHeard s := by
  have hbytes := h.booked _ _ weighs_bytes
  exact Nat.le_of_add_right_le hbytes.le

theorem Sound.requests_le (h : Sound s) : (snapshot s).totalRequests ≤ answered s := by
  have hrequests := h.booked _ _ weighs_requests
  rw [answered_eq]
  exact Nat.le_of_add_right_le hrequests.le

theorem Sound.settled (h : Sound s) (hquiet : busy s = 0) :
    snapshot s = ⟨tasksUnderway s, bytesHeard s, answered s⟩ := by
  have hgauge := h.gauge
  have hdue : ∀ k, (s.threads k).due = [] := by
    intro k
    by_contra hne
    exact Finset.filter_eq_empty_iff.mp (Finset.card_eq_zero.mp hquiet) (Finset.mem_univ k) hne
  have hbytes := h.booked _ _ weighs_bytes
  have hrequests := h.booked _ _ weighs_requests
  have hnone : ∀ count, ∑ k, total count (s.threads k).due = 0 := by
    intro count
    apply Finset.sum_eq_zero
    intro k _
    rw [hdue k]
    rfl
  simp only [Booked, hnone, Nat.add_zero] at hbytes hrequests
  have hconns : (snapshot s).activeConnections = tasksUnderway s := by omega
  have hbytes' : (snapshot s).totalBytes = bytesHeard s := hbytes
  have hrequests' : (snapshot s).totalRequests = answered s := by
    rw [answered_eq]
    exact hrequests
  rw [← hconns, ← hbytes', ← hrequests']

theorem sound_run (es : List (Event n)) : Sound (run next (opened n) es) ∧
    ∃ reported, Reported (run next (opened n) es) reported := by
  apply run_preserves (P := fun s : System n => Sound s ∧ ∃ reported, Reported s reported)
  · rintro s e ⟨hsound, reported, hreported⟩
    exact ⟨sound_next hsound e, reported_next hsound hreported e⟩
  · exact ⟨sound_opened n, [], reported_opened n⟩

theorem Sound.exact_of_few (h : Sound s) (hconns : accepted s < 2 ^ 64)
    (hbytes : bytesHeard s < 2 ^ 64) {q : Snapshot}
    (hq : q.activeConnections ≤ total opens s.performed)
    (hq' : q.totalBytes ≤ total bytesOf s.performed)
    (hq'' : q.totalRequests ≤ total requestsOf s.performed) :
    q.toTelemetry.activeConnections.toNat = q.activeConnections ∧
      q.toTelemetry.totalBytes.toNat = q.totalBytes ∧
      q.toTelemetry.totalRequests.toNat = q.totalRequests := by
  have hopens := h.opens_le
  have hheard : total bytesOf s.performed ≤ bytesHeard s := h.bytes_le
  have hanswers := h.answers_le
  have hsize : UInt64.size = 2 ^ 64 := rfl
  exact ⟨UInt64.toNat_ofNat_of_lt' (by omega), UInt64.toNat_ofNat_of_lt' (by omega),
    UInt64.toNat_ofNat_of_lt' (by omega)⟩

def samplesOf (report : Telemetry) : List (Text × ℕ) :=
  samples (response report.activeConnections report.totalBytes report.totalRequests)

/-- However the cores interleave with each other and with the endpoint, and whatever panics on them:
the gauge shows the tasks under way but for the cores in the midst of a step, and when there are
none of these the counters are exact. From one report to the next no counter falls, every answer
that was counted comes with a byte from either side, and no report is ahead of what happened. -/
theorem telemetry_adds_up (n : ℕ) (es : List (Event n))
    (hconns : accepted (run next (opened n) es) < 2 ^ 64)
    (hbytes : bytesHeard (run next (opened n) es) < 2 ^ 64) :
    let s := run next (opened n) es
    s.tele.activeConnections.toNat ≤ tasksUnderway s + busy s ∧
    tasksUnderway s ≤ s.tele.activeConnections.toNat + busy s ∧
    (busy s = 0 → s.tele.activeConnections.toNat = tasksUnderway s ∧
      s.tele.totalBytes.toNat = bytesHeard s ∧ s.tele.totalRequests.toNat = answered s) ∧
    s.reports.Pairwise (fun q r => q.totalBytes ≤ r.totalBytes ∧
      q.totalRequests ≤ r.totalRequests ∧ 2 * q.totalRequests.toNat ≤ r.totalBytes.toNat) ∧
    ∀ r ∈ s.reports, ∃ conns bytes reqs, samplesOf r =
        [(activeConnections.name, conns), (totalBytes.name, bytes), (totalRequests.name, reqs)] ∧
      conns ≤ accepted s ∧ bytes ≤ bytesHeard s ∧ reqs ≤ answered s := by
  intro s
  obtain ⟨hsound, reported, hreported⟩ : Sound s ∧ ∃ reported, Reported s reported := sound_run es
  have hexact := fun q => hsound.exact_of_few hconns hbytes (q := q)
  obtain ⟨hnow, hnow', hnow''⟩ := hexact (snapshot s) (Nat.sub_le _ _) le_rfl le_rfl
  have hgauge := hsound.gauge
  rw [← hsound.tele_eq] at hnow hnow' hnow''
  rw [hnow, hnow', hnow'']
  refine ⟨hgauge.1, hgauge.2, ?_, ?_, ?_⟩
  · intro hquiet
    rw [hsound.settled hquiet]
    exact ⟨rfl, rfl, rfl⟩
  · rw [hreported.reports, List.pairwise_map]
    refine hreported.ordered.imp_of_mem ?_
    intro q r hq hr hlater
    obtain ⟨hq₁, hq₂, hq₃⟩ := hreported.bounded q hq
    obtain ⟨hr₁, hr₂, hr₃⟩ := hreported.bounded r hr
    obtain ⟨_, hqb, hqr⟩ := hexact q hq₁ hq₂ hq₃
    obtain ⟨_, hrb, hrr⟩ := hexact r hr₁ hr₂ hr₃
    obtain ⟨h₁, h₂, h₃⟩ := hlater
    rw [UInt64.le_iff_toNat_le, UInt64.le_iff_toNat_le, hqb, hrb, hqr, hrr]
    exact ⟨h₁, h₂, h₃⟩
  · intro r hr
    rw [hreported.reports] at hr
    obtain ⟨q, hq, rfl⟩ := List.mem_map.mp hr
    obtain ⟨hq₁, hq₂, hq₃⟩ := hreported.bounded q hq
    obtain ⟨hqc, hqb, hqr⟩ := hexact q hq₁ hq₂ hq₃
    refine ⟨q.activeConnections, q.totalBytes, q.totalRequests, ?_, hq₁.trans hsound.opens_le,
      hq₂.trans hsound.bytes_le, hq₃.trans hsound.requests_le⟩
    rw [samplesOf, samples_response, hqc, hqb, hqr]

def twoCores : List (Event 2) :=
  [.core 0 .accept, .core 0 (.start 0), .scrape, .perform 0, .core 0 (.connected 0 (some 0)),
    .core 1 .accept, .core 1 (.start 0), .core 0 (.clientRead 0 (some hello)), .perform 0, .scrape,
    .perform 1, .scrape, .core 0 (.backendWritten 0 true), .core 0 (.backendRead 0 (some hello)),
    .perform 0, .core 0 (.clientWritten 0 true), .perform 0, .scrape, .scrape, .perform 0, .scrape]

theorem telemetry_adds_up_two_cores :
    let s := run next (opened 2) twoCores
    s.tele.activeConnections.toNat ≤ tasksUnderway s + busy s ∧
    tasksUnderway s ≤ s.tele.activeConnections.toNat + busy s ∧
    (busy s = 0 → s.tele.activeConnections.toNat = tasksUnderway s ∧
      s.tele.totalBytes.toNat = bytesHeard s ∧ s.tele.totalRequests.toNat = answered s) ∧
    s.reports.Pairwise (fun q r => q.totalBytes ≤ r.totalBytes ∧
      q.totalRequests ≤ r.totalRequests ∧ 2 * q.totalRequests.toNat ≤ r.totalBytes.toNat) ∧
    ∀ r ∈ s.reports, ∃ conns bytes reqs, samplesOf r =
        [(activeConnections.name, conns), (totalBytes.name, bytes), (totalRequests.name, reqs)] ∧
      conns ≤ accepted s ∧ bytes ≤ bytesHeard s ∧ reqs ≤ answered s := by
  have hconns : accepted (run next (opened 2) twoCores) = 2 := by decide
  have hbytes : bytesHeard (run next (opened 2) twoCores) = 4 := by decide +kernel
  exact telemetry_adds_up 2 twoCores (by omega) (by omega)

end AegisTelemetry
