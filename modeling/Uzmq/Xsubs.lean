import Uzmq.DistributorSends
import Uzmq.FairQueues
import Uzmq.Tries
import Uzmq.V2Decoder

/-!
# Subscribing sockets

The part of `xsub_t` that deals with subscriptions. Whether a write succeeds is given from outside.
No result stands for a failed assertion or an access out of bounds.

The socket counts its subscriptions and forwards all of them, but only those unsubscriptions with
which the last one of its kind goes. `request` says this for the multiset of subscriptions.
-/

namespace Uzmq.Xsubs

open Message
open Distributors (Content Distributor Ordered)
open FairQueues (Fq)
open Tries (Trie refcnts Refines)

variable {Pipe : Type} [DecidableEq Pipe]

structure Xsub (Pipe : Type) where
  fq : Fq Pipe := {}
  dist : Distributor Pipe := {}
  subscriptions : Trie := .new refcnts

/-- What `send_subscription` writes. -/
def subscription (topic : List UInt8) : Msg where
  type := if topic.length + 1 ≤ V2Decoder.maxVsmSize then .vsm else .lmsg
  data := 1 :: topic

/-- The socket after a call of `xsend`, and the writes. -/
structure Sent (Pipe : Type) where
  socket : Xsub Pipe
  log : List (Pipe × Bool)

namespace Xsub

/-- The socket, and the messages that are written to the new pipe. -/
def xattachPipe (x : Xsub Pipe) (pipe : Pipe) : Option (Xsub Pipe × List Msg) :=
  match x.fq.attach pipe with
  | none => none
  | some fq =>
    match x.dist.attach pipe with
    | none => none
    | some dist =>
      (Tries.apply x.subscriptions).map fun topics =>
        ({ x with fq := fq, dist := dist }, topics.map subscription)

def sendToAll (x : Xsub Pipe) (m : Msg) (c : Content) (ok : Nat → Pipe → Bool) :
    Option (Sent Pipe) :=
  (x.dist.sendToAll m c ok).map fun r => { socket := { x with dist := r.dist }, log := r.log }

def xsend (x : Xsub Pipe) (m : Msg) (c : Content) (ok : Nat → Pipe → Bool) : Option (Sent Pipe) :=
  match m.data with
  | [] => x.sendToAll m c ok
  | first :: topic =>
    if first = 1 then
      match Tries.add x.subscriptions topic with
      | none => none
      | some (trie, _) => sendToAll { x with subscriptions := trie } m c ok
    else if first = 0 then
      match Tries.rm x.subscriptions topic with
      | none => none
      | some (trie, true) => sendToAll { x with subscriptions := trie } m c ok
      | some (trie, false) => some { socket := { x with subscriptions := trie }, log := [] }
    else x.sendToAll m c ok

def xwriteActivated (x : Xsub Pipe) (pipe : Pipe) : Option (Xsub Pipe) :=
  (x.dist.activated pipe).map fun dist => { x with dist := dist }

def xpipeTerminated (x : Xsub Pipe) (pipe : Pipe) : Option (Xsub Pipe) :=
  match x.fq.pipeTerminated pipe with
  | none => none
  | some fq => (x.dist.pipeTerminated pipe).map fun dist => { x with fq := fq, dist := dist }

/-- The messages that are written to the pipe. -/
def xhiccuped (x : Xsub Pipe) : Option (List Msg) :=
  (Tries.apply x.subscriptions).map fun topics => topics.map subscription

end Xsub

/-- What a message makes of the subscriptions, and whether it is forwarded. -/
def request (held : Multiset (List UInt8)) : List UInt8 → Multiset (List UInt8) × Bool
  | [] => (held, true)
  | first :: topic =>
    if first = 1 then (topic ::ₘ held, true)
    else if first = 0 then (held.erase topic, held.count topic == 1)
    else (held, true)

/-- All pipes can be written to, and no message is in progress. -/
structure Steady (x : Xsub Pipe) : Prop where
  ordered : Ordered x.dist
  more : x.dist.more = false
  eligible : ∀ q ∈ x.dist.pipes.items, x.dist.pipes.index q < x.dist.eligible
  rota : Rota.Ok x.fq.rota
  same : ∀ q, q ∈ x.fq.rota.slots.items ↔ q ∈ x.dist.pipes.items

/-- A message that is not forwarded leaves the pipes alone. -/
theorem of_xsend {x : Xsub Pipe} {m : Msg} {c : Content} {ok : Nat → Pipe → Bool} {r : Sent Pipe}
    (h : x.xsend m c ok = some r) :
    (r.socket.dist = x.dist ∧ r.log = []) ∨
      ∃ sent, x.dist.sendToAll m c ok = some sent ∧ r.socket.dist = sent.dist ∧
        r.log = sent.log := by
  have hall {trie : Trie} (h : Xsub.sendToAll { x with subscriptions := trie } m c ok = some r) :
      ∃ sent, x.dist.sendToAll m c ok = some sent ∧ r.socket.dist = sent.dist ∧
        r.log = sent.log := by
    obtain ⟨sent, hsent, rfl⟩ := Option.map_eq_some_iff.mp h
    exact ⟨sent, hsent, rfl, rfl⟩
  unfold Xsub.xsend at h
  split at h
  · exact .inr (hall h)
  split at h
  · split at h
    · cases h
    · exact .inr (hall h)
  split at h
  · split at h
    · cases h
    · exact .inr (hall h)
    · cases h
      exact .inl ⟨rfl, rfl⟩
  · exact .inr (hall h)

section Steady
variable {x : Xsub Pipe} {held : Multiset (List UInt8)}

theorem steady_new : Steady ({} : Xsub Pipe) := by
  constructor
  · exact Distributors.shows_new.ordered
  · rfl
  · intro q hq
    cases hq
  · exact Rota.ok_new
  · intro q
    rfl

/-- A new pipe gets each of the subscriptions once. -/
structure Attached (x : Xsub Pipe) (held : Multiset (List UInt8)) (pipe : Pipe) (x' : Xsub Pipe)
    (topics : List (List UInt8)) : Prop where
  steady : Steady x'
  subscriptions : x'.subscriptions = x.subscriptions
  mem : ∀ q, q ∈ x'.dist.pipes.items ↔ q ∈ x.dist.pipes.items ∨ q = pipe
  topics : ∀ topic, topic ∈ topics ↔ topic ∈ held

theorem Steady.xattachPipe (h : Steady x) (hrefines : Refines x.subscriptions held) {pipe : Pipe}
    (hnew : pipe ∉ x.dist.pipes.items) :
    ∃ x' topics, x.xattachPipe pipe = some (x', topics.map subscription) ∧
      Attached x held pipe x' topics := by
  obtain ⟨dist, hdist, hshows⟩ := h.ordered.shows.attach hnew
  obtain ⟨rota, hrota, hholds, -⟩ := h.rota.attach fun hin => hnew ((h.same pipe).mp hin)
  obtain ⟨topics, htopics, -, hmem⟩ := hrefines.serves.apply
  have hmem' (q : Pipe) : q ∈ dist.pipes.items ↔ q ∈ x.dist.pipes.items ∨ q = pipe :=
    hshows.attached q
  refine ⟨{ x with fq := { x.fq with rota := rota }, dist := dist }, topics, ?_, ?_⟩
  · simp [Xsub.xattachPipe, Fq.attach, hrota, hdist, htopics]
  constructor
  · constructor
    · exact hshows.ordered
    · exact hshows.more.trans h.more
    · intro q hq
      refine (hshows.eligible q).mpr ?_
      rcases (hmem' q).mp hq with hq | hq
      · exact .inl (h.eligible q hq)
      · exact .inr hq
    · exact hholds.ok
    · intro q
      rw [hholds.mem, hmem', h.same]
  · rfl
  · exact hmem'
  · intro topic
    rw [hmem, Multiset.count_pos]

/-- A message is written to all pipes, or to none if it is not forwarded. -/
structure Forwards (dist : Distributor Pipe) (held : Multiset (List UInt8)) (forwarded : Bool)
    (r : Sent Pipe) : Prop where
  steady : Steady r.socket
  refines : Refines r.socket.subscriptions held
  mem : ∀ q, q ∈ r.socket.dist.pipes.items ↔ q ∈ dist.pipes.items
  log : ∀ q, (q, true) ∈ r.log ↔ q ∈ dist.pipes.items ∧ forwarded = true

theorem Steady.resubscribe (h : Steady x) (trie : Trie) :
    Steady { x with subscriptions := trie } :=
  { h with }

theorem Steady.sendToAll (h : Steady x) (hrefines : Refines x.subscriptions held) {m : Msg}
    (hmore : m.flags.more = false) (c : Content) :
    ∃ r, x.sendToAll m c (fun _ _ => true) = some r ∧ Forwards x.dist held true r := by
  obtain ⟨r, hr, hsends⟩ := h.ordered.shows.all.sendToMatching m c fun _ _ => true
  rw [hmore] at hsends
  have hlinked (q : Pipe) (hq : q ∈ x.dist.pipes.items) :=
    Distributors.Linked.sendToAll ⟨h.ordered, h.more, h.eligible q hq⟩ hmore (fun _ => rfl) hr
  have hitems (q : Pipe) : q ∈ r.dist.pipes.items ↔ q ∈ x.dist.pipes.items :=
    hsends.shows.attached q
  refine ⟨{ socket := { x with dist := r.dist }, log := r.log }, ?_, ?_⟩
  · rw [Xsub.sendToAll, Distributor.sendToAll, hr, Option.map_some]
  constructor
  · constructor
    · exact hsends.shows.ordered
    · exact hsends.shows.more
    · exact fun q hq => (hlinked q ((hitems q).mp hq)).1.eligible
    · exact h.rota
    · intro q
      exact (h.same q).trans (hitems q).symm
  · exact hrefines
  · exact hitems
  · intro q
    rw [and_iff_left rfl]
    constructor
    · intro hq
      have hlt := (hsends.mem q).mp (List.mem_map_of_mem hq)
      have hle := h.ordered.active_le
      have hsize := h.ordered.eligible_le
      exact Slots.index_lt_size_iff.mp (Nat.lt_of_lt_of_le hlt (hle.trans hsize))
    · exact fun hq => (hlinked q hq).2

/-- A call of `xsend` with a message of one part, if the counter of its topic does not overflow. -/
theorem Steady.xsend (h : Steady x) (hrefines : Refines x.subscriptions held) {m : Msg}
    (hmore : m.flags.more = false) (c : Content)
    (hcount : ∀ topic, m.data = 1 :: topic → held.count topic < 2 ^ 32 - 1) :
    ∃ r, x.xsend m c (fun _ _ => true) = some r ∧
      Forwards x.dist (request held m.data).1 (request held m.data).2 r := by
  unfold Xsub.xsend
  cases hdata : m.data with
  | nil => exact h.sendToAll hrefines hmore c
  | cons first topic =>
    by_cases hone : first = 1
    · obtain ⟨trie, htrie, hadded⟩ := hrefines.add topic (hcount topic (by rw [hdata, hone]))
      obtain ⟨r, hr, hforwards⟩ := (h.resubscribe trie).sendToAll hadded hmore c
      exact ⟨r, by simpa [hone, htrie] using hr, by simpa [request, hone] using hforwards⟩
    by_cases hzero : first = 0
    · obtain ⟨trie, htrie, hremoved⟩ := hrefines.rm topic
      have hsteady := h.resubscribe trie
      cases hlast : (held.count topic == 1) with
      | true =>
        rw [hlast] at htrie
        obtain ⟨r, hr, hforwards⟩ := hsteady.sendToAll hremoved hmore c
        refine ⟨r, by simpa [hzero, htrie] using hr, ?_⟩
        simpa [request, hzero, hlast] using hforwards
      | false =>
        rw [hlast] at htrie
        refine ⟨{ socket := { x with subscriptions := trie }, log := [] }, ?_, ?_⟩
        · simp [hzero, htrie]
        · rw [request, if_neg hone, if_pos hzero, hlast]
          exact ⟨hsteady, hremoved, fun _ => Iff.rfl, by simp⟩
    · obtain ⟨r, hr, hforwards⟩ := h.sendToAll hrefines hmore c
      refine ⟨r, by simpa [hone, hzero] using hr, ?_⟩
      simpa [request, hone, hzero] using hforwards

end Steady

end Uzmq.Xsubs
