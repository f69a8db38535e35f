import Mathlib.Data.List.Basic
import Mathlib.Data.Nat.Basic

/-! Broadcast channels that keep a bounded number of messages. Every receiver is at a place in the
sequence of all messages; one that comes too late for a message is told how many it has missed, and
goes on with the oldest one that is kept. -/
namespace BroadcastChannels

inductive Received (α : Type) where
  | message (a : α)
  | lagged (missed : ℕ)
  | empty
  | closed
  deriving DecidableEq, Repr

structure Broadcast (α : Type) where
  Channel : Type
  Receiver : Type
  new : Channel
  send : Channel → α → Channel
  subscribe : Channel → Channel × Receiver
  drop : Channel → Receiver → Channel
  recv : Channel → Receiver → Received α × Receiver

variable {α : Type}

/-- What a receiver at a place finds in a channel that keeps `cap` messages. -/
def finds (cap : ℕ) (sent : List α) (place : ℕ) : Received α × ℕ :=
  if place + cap < sent.length then (.lagged (sent.length - cap - place), sent.length - cap)
  else
    match sent[place]? with
    | some a => (.message a, place + 1)
    | none => (.empty, place)

/-- A channel with the documented behaviour. A message that is sent while there is no receiver is
not kept for any. -/
structure Lawful (B : Broadcast α) (cap : ℕ) where
  sent : B.Channel → List α
  receivers : B.Channel → ℕ
  place : B.Receiver → ℕ
  sent_new : sent B.new = []
  receivers_new : receivers B.new = 0
  sent_send : ∀ c a, sent (B.send c a) = if receivers c = 0 then sent c else sent c ++ [a]
  receivers_send : ∀ c a, receivers (B.send c a) = receivers c
  sent_subscribe : ∀ c, sent (B.subscribe c).1 = sent c
  receivers_subscribe : ∀ c, receivers (B.subscribe c).1 = receivers c + 1
  place_subscribe : ∀ c, place (B.subscribe c).2 = (sent c).length
  sent_drop : ∀ c r, sent (B.drop c r) = sent c
  receivers_drop : ∀ c r, receivers (B.drop c r) = receivers c - 1
  recv_finds : ∀ c r, ((B.recv c r).1, place (B.recv c r).2) = finds cap (sent c) (place r)

/-- The channel that keeps everything and forgets nothing but what it may no longer show. -/
def logged (α : Type) (cap : ℕ) : Broadcast α where
  Channel := List α × ℕ
  Receiver := ℕ
  new := ([], 0)
  send c a := if c.2 = 0 then c else (c.1 ++ [a], c.2)
  subscribe c := ((c.1, c.2 + 1), c.1.length)
  drop c _ := (c.1, c.2 - 1)
  recv c r := finds cap c.1 r

def loggedLawful (α : Type) (cap : ℕ) : Lawful (logged α cap) cap where
  sent := Prod.fst
  receivers := Prod.snd
  place := id
  sent_new := rfl
  receivers_new := rfl
  sent_send := by
    rintro ⟨sent, receivers⟩ a
    by_cases hnone : receivers = 0
    · simp [logged, hnone]
    · simp [logged, hnone]
  receivers_send := by
    rintro ⟨sent, receivers⟩ a
    by_cases hnone : receivers = 0
    · simp [logged, hnone]
    · simp [logged, hnone]
  sent_subscribe _ := rfl
  receivers_subscribe _ := rfl
  place_subscribe _ := rfl
  sent_drop _ _ := rfl
  receivers_drop _ _ := rfl
  recv_finds _ _ := rfl

/-- What a receiver has of the messages since it came: of the first `read` ones it has seen some, in
their order, and missed the others. Of the latest `cap` messages it has missed none. -/
structure Account (cap : ℕ) (since : List α) (read : ℕ) (seen : List α) (missed : ℕ) : Prop where
  reached : read ≤ since.length
  order : seen.Sublist (since.take read)
  count : seen.length + missed = read
  latest : (since.take read).drop (since.length - cap) <:+ seen

section Accounts

variable {cap read missed : ℕ} {since seen : List α}

theorem account_subscribe (cap : ℕ) : Account cap ([] : List α) 0 [] 0 where
  reached := Nat.le_refl _
  order := List.nil_sublist _
  count := rfl
  latest := by simp

theorem Account.send (h : Account cap since read seen missed) (a : α) :
    Account cap (since ++ [a]) read seen missed := by
  have htake : (since ++ [a]).take read = since.take read :=
    List.take_append_of_le_length h.reached
  constructor
  · have := h.reached
    simp only [List.length_append, List.length_singleton]
    omega
  · rw [htake]
    exact h.order
  · exact h.count
  · rw [htake, List.length_append, List.length_singleton]
    have hlater : since.length - cap ≤ since.length + 1 - cap := by omega
    exact (List.drop_suffix_drop_left _ hlater).trans h.latest

theorem Account.message (h : Account cap since read seen missed) {a : α}
    (ha : since[read]? = some a) : Account cap since (read + 1) (seen ++ [a]) missed := by
  obtain ⟨hlt, _⟩ := List.getElem?_eq_some_iff.mp ha
  have htake : since.take (read + 1) = since.take read ++ [a] := by
    rw [List.take_add_one, ha]
    rfl
  have hlength : (since.take read).length = read := List.length_take_of_le h.reached
  constructor
  · exact hlt
  · rw [htake]
    exact h.order.append_right [a]
  · have := h.count
    simp only [List.length_append, List.length_singleton]
    omega
  · rw [htake]
    rcases Nat.lt_or_ge read (since.length - cap) with hlater | hle
    · have hall : (since.take read ++ [a]).length ≤ since.length - cap := by
        simp only [List.length_append, List.length_singleton]
        omega
      rw [List.drop_of_length_le hall]
      exact List.nil_suffix
    · obtain ⟨earlier, hseen⟩ := h.latest
      rw [List.drop_append_of_le_length (by omega)]
      exact ⟨earlier, by rw [← hseen, List.append_assoc]⟩

theorem Account.lagged (h : Account cap since read seen missed)
    (hlag : read + cap < since.length) :
    Account cap since (since.length - cap) seen (missed + (since.length - cap - read)) := by
  have hcount := h.count
  constructor
  · omega
  · exact h.order.trans (List.take_prefix_take_left (by omega)).sublist
  · omega
  · have hall : (since.take (since.length - cap)).length ≤ since.length - cap := by
      rw [List.length_take]
      omega
    rw [List.drop_of_length_le hall]
    exact List.nil_suffix

theorem Account.seen_eq (h : Account cap since read seen 0) : seen = since.take read := by
  apply h.order.eq_of_length
  have := h.count
  rw [List.length_take_of_le h.reached]
  omega

theorem Account.caught_up (h : Account cap since since.length seen missed) :
    since.drop (since.length - cap) <:+ seen := by
  have hlatest := h.latest
  rwa [List.take_length] at hlatest

end Accounts

variable {B : Broadcast α} {cap : ℕ} {L : Lawful B cap} {c : B.Channel} {r : B.Receiver}
  {since seen : List α} {missed : ℕ}

def Tuned (L : Lawful B cap) (c : B.Channel) (r : B.Receiver) (since seen : List α)
    (missed : ℕ) : Prop :=
  ∃ start ≤ L.place r, start ≤ (L.sent c).length ∧ (L.sent c).drop start = since ∧
    Account cap since (L.place r - start) seen missed

theorem tuned_subscribe (L : Lawful B cap) (c : B.Channel) :
    Tuned L (B.subscribe c).1 (B.subscribe c).2 [] [] 0 := by
  refine ⟨(L.sent c).length, ?_, ?_, ?_, ?_⟩
  · rw [L.place_subscribe]
  · rw [L.sent_subscribe]
  · rw [L.sent_subscribe, List.drop_length]
  · rw [L.place_subscribe, Nat.sub_self]
    exact account_subscribe cap

theorem Tuned.other (h : Tuned L c r since seen missed) {c' : B.Channel}
    (hsent : L.sent c' = L.sent c) : Tuned L c' r since seen missed := by
  unfold Tuned
  rw [hsent]
  exact h

theorem Tuned.send (h : Tuned L c r since seen missed) (hreceivers : L.receivers c ≠ 0) (a : α) :
    Tuned L (B.send c a) r (since ++ [a]) seen missed := by
  obtain ⟨start, hplace, hstart, hsince, haccount⟩ := h
  have hsent : L.sent (B.send c a) = L.sent c ++ [a] := by rw [L.sent_send, if_neg hreceivers]
  refine ⟨start, hplace, ?_, ?_, haccount.send a⟩
  · rw [hsent, List.length_append]
    omega
  · rw [hsent, List.drop_append_of_le_length hstart, hsince]

theorem Tuned.recv (h : Tuned L c r since seen missed) :
    match (B.recv c r).1 with
    | .message a => Tuned L c (B.recv c r).2 since (seen ++ [a]) missed
    | .lagged n => Tuned L c (B.recv c r).2 since seen (missed + n)
    | .empty => Tuned L c (B.recv c r).2 since seen missed ∧
        seen.length + missed = since.length ∧ since.drop (since.length - cap) <:+ seen
    | .closed => False := by
  obtain ⟨start, hplace, hstart, hsince, haccount⟩ := h
  have hfinds := L.recv_finds c r
  have hlength : since.length = (L.sent c).length - start := by rw [← hsince, List.length_drop]
  unfold finds at hfinds
  split at hfinds
  · next hlag =>
    obtain ⟨hreceived, hnew⟩ := Prod.mk.inj hfinds
    rw [hreceived]
    have hrel := haccount.lagged (by omega)
    refine ⟨start, by omega, hstart, hsince, ?_⟩
    rw [hnew]
    have hread : (L.sent c).length - cap - start = since.length - cap := by omega
    have hmissed : (L.sent c).length - cap - L.place r =
        since.length - cap - (L.place r - start) := by omega
    rw [hread, hmissed]
    exact hrel
  · next hlag =>
    have hget : since[L.place r - start]? = (L.sent c)[L.place r]? := by
      rw [← hsince, List.getElem?_drop]
      congr 1
      omega
    split at hfinds
    · next a ha =>
      obtain ⟨hreceived, hnew⟩ := Prod.mk.inj hfinds
      rw [hreceived]
      refine ⟨start, by omega, hstart, hsince, ?_⟩
      have hread : L.place r + 1 - start = L.place r - start + 1 := by omega
      rw [hnew, hread]
      exact haccount.message (hget.trans ha)
    · next ha =>
      obtain ⟨hreceived, hnew⟩ := Prod.mk.inj hfinds
      rw [hreceived]
      have hend : L.place r - start = since.length := by
        have hover := List.getElem?_eq_none_iff.mp (hget.trans ha)
        have := haccount.reached
        omega
      refine ⟨⟨start, by omega, hstart, hsince, ?_⟩, ?_, ?_⟩
      · rw [hnew]
        exact haccount
      · rw [haccount.count, hend]
      · rw [hend] at haccount
        exact haccount.caught_up

theorem Tuned.order (h : Tuned L c r since seen missed) :
    seen.Sublist since ∧ seen.length + missed ≤ since.length ∧
      (missed = 0 → seen <+: since) := by
  obtain ⟨start, hplace, hstart, hsince, haccount⟩ := h
  refine ⟨haccount.order.trans (List.take_sublist _ _), ?_, ?_⟩
  · rw [haccount.count]
    exact haccount.reached
  · rintro rfl
    rw [haccount.seen_eq]
    exact List.take_prefix _ _

end BroadcastChannels
