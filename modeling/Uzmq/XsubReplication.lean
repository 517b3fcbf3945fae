import Uzmq.XpubSends
import Uzmq.Xsubs

/-!
# Replication of subscriptions

An XSUB socket and the XPUB sockets at the other ends of its pipes; `owner` says which socket a
pipe leads to. A pipe is a queue of messages on their way to its owner, which is never full. Both
ends of a pipe are attached at any time, and a publisher reads any number of the messages that
wait for it. Publishers are in use meanwhile: they send, receive what was queued for the user and
have options set, only not the one for manual subscriptions.

What a publisher holds for a pipe becomes the set of the subscriptions once the queue of the pipe
is replayed. A counter that overflows breaks this: after `2 ^ 32` subscriptions to one topic the
subscriber has none.
-/

namespace Uzmq.XsubReplication

open Option Function
open Message
open Distributors (Content Ordered)
open Mtries (subscribers)
open Tries (refcnts)
open Xpubs (Xpub Fits)
open Xsubs (Xsub Steady request subscription)
open Runs (Reach)

variable {Socket Pipe : Type} [DecidableEq Socket] [DecidableEq Pipe]

structure Network (Socket Pipe : Type) where
  xsub : Xsub Pipe := {}
  xpubs : Socket → Xpub Pipe := fun _ => {}
  queues : Pipe → List Msg := fun _ => []

inductive Input (Socket Pipe : Type) where
  | attachXsub (pipe : Pipe)
  /-- `n` messages are read when the pipe is attached. -/
  | attachXpub (pipe : Pipe) (n : Nat)
  | send (m : Msg) (c : Content)
  | read (pipe : Pipe) (n : Nat)
  | publish (socket : Socket) (m : Msg) (c : Content) (room : Pipe → Bool)
      (ok : Nat → Pipe → Bool)
  | recv (socket : Socket)
  | setsockopt (socket : Socket) (option : Xpub.SockOpt)

namespace Network

variable (s : Network Socket Pipe)

/-- The state of a publisher changes. -/
def setXpub (socket : Socket) (x : Xpub Pipe) : Network Socket Pipe :=
  { s with xpubs := update s.xpubs socket x }

/-- A publisher has read the first `n` messages of a pipe. -/
def consume (pipe : Pipe) (n : Nat) : Network Socket Pipe :=
  { s with queues := update s.queues pipe ((s.queues pipe).drop n) }

end Network

section System
variable (owner : Pipe → Socket)

def step (s : Network Socket Pipe) : Input Socket Pipe → Option (Network Socket Pipe)
  | .attachXsub pipe =>
    (s.xsub.xattachPipe pipe).map fun r =>
      { s with
        xsub := r.1, queues := update s.queues pipe (s.queues pipe ++ r.2) }
  | .attachXpub pipe n =>
    ((s.xpubs (owner pipe)).xattachPipe pipe false true ((s.queues pipe).take n)).map fun x =>
      (s.setXpub (owner pipe) x).consume pipe n
  | .send m c =>
    (s.xsub.xsend m c fun _ _ => true).map fun r =>
      { s with
        xsub := r.socket
        queues := fun q => if r.log.contains (q, true) then s.queues q ++ [m] else s.queues q }
  | .read pipe n =>
    ((s.xpubs (owner pipe)).xreadActivated pipe ((s.queues pipe).take n)).map fun x =>
      (s.setXpub (owner pipe) x).consume pipe n
  | .publish socket m c room ok =>
    ((s.xpubs socket).xsend m c room ok).map fun r => s.setXpub socket r.socket
  | .recv socket =>
    match (s.xpubs socket).xrecv with
    | none => some s
    | some (x, _) => some (s.setXpub socket x)
  | .setsockopt socket option => ((s.xpubs socket).xsetsockopt option).map (s.setXpub socket)

/-- An end of a pipe is attached once, messages of the subscriber have one part, and publishers
are not in manual mode. -/
def Allowed (s : Network Socket Pipe) : Input Socket Pipe → Prop
  | .attachXsub pipe => pipe ∉ s.xsub.dist.pipes.items
  | .attachXpub pipe _ => pipe ∉ (s.xpubs (owner pipe)).dist.pipes.items
  | .send m _ => m.flags.more = false
  | .read pipe _ => pipe ∈ (s.xpubs (owner pipe)).dist.pipes.items
  | .setsockopt _ (.manual value) => value = false
  | _ => True

/-- The counter of a topic is not incremented beyond what it can hold. -/
def Counted (s : Network Socket Pipe) : Input Socket Pipe → Prop
  | .send m _ =>
    m.data.head? = some 1 → s.xsub.subscriptions.get refcnts m.data.tail < 2 ^ 32 - 1
  | _ => True

def Guard (s : Network Socket Pipe) (i : Input Socket Pipe) : Prop :=
  Allowed owner s i ∧ Counted s i

instance (s : Network Socket Pipe) (i : Input Socket Pipe) : Decidable (Allowed owner s i) := by
  induction i using Input.casesOn with
  | setsockopt socket option =>
    induction option using Xpubs.Xpub.SockOpt.casesOn <;> dsimp only [Allowed] <;> infer_instance
  | _ => dsimp only [Allowed]; infer_instance

instance (s : Network Socket Pipe) (i : Input Socket Pipe) : Decidable (Counted s i) := by
  induction i using Input.casesOn <;> dsimp only [Counted] <;> infer_instance

instance (s : Network Socket Pipe) (i : Input Socket Pipe) : Decidable (Guard owner s i) :=
  inferInstanceAs (Decidable (Allowed owner s i ∧ Counted s i))

structure Initial (s : Network Socket Pipe) : Prop where
  xsub : s.xsub = {}
  subscriptions : ∀ socket, (s.xpubs socket).subscriptions = .new subscribers
  dist : ∀ socket, (s.xpubs socket).dist = {}
  more : ∀ socket, (s.xpubs socket).more = false
  manual : ∀ socket, (s.xpubs socket).manual = false
  queues : ∀ pipe, s.queues pipe = []

/-- No assertion fails, and a publisher that has read everything holds the subscriptions. -/
structure Replicated (s : Network Socket Pipe) : Prop where
  total : ∀ i, Guard owner s i → (step owner s i).isSome
  replica : ∀ pipe ∈ s.xsub.dist.pipes.items, s.queues pipe = [] → ∀ topic,
    pipe ∈ ((s.xpubs (owner pipe)).subscriptions.get subscribers topic).getD [] ↔
      0 < s.xsub.subscriptions.get refcnts topic

end System

section Replay

/-- What a message makes of the topics held for a pipe. An unsubscription from a topic that is not
held is out of order. -/
def hear (topics : Finset (List UInt8)) (m : Msg) : Option (Finset (List UInt8)) :=
  match m.data with
  | [] => some topics
  | first :: topic =>
    if first = 0 then if topic ∈ topics then some (topics.erase topic) else none
    else if first = 1 then some (insert topic topics)
    else some topics

/-- What is forwarded keeps the replica equal to the set of subscriptions. -/
theorem hear_request (held : Multiset (List UInt8)) (m : Msg) :
    if (request held m.data).2 then hear held.toFinset m = some (request held m.data).1.toFinset
    else (request held m.data).1.toFinset = held.toFinset := by
  unfold hear
  cases m.data with
  | nil => simp [request]
  | cons first topic =>
    by_cases hone : first = 1
    · simp [request, hone]
    by_cases hzero : first = 0
    · by_cases hlast : held.count topic = 1
      · have hin : topic ∈ held := Multiset.count_pos.mp (by omega)
        have herase : (held.erase topic).toFinset = held.toFinset.erase topic := by
          ext k
          rcases eq_or_ne k topic with rfl | hk
          · simp [← Multiset.count_pos, hlast]
          · simp [hk, Multiset.mem_erase_of_ne hk]
        simp [request, hzero, hlast, hin, herase]
      · have hsame : (held.erase topic).toFinset = held.toFinset := by
          ext k
          rw [Multiset.mem_toFinset, Multiset.mem_toFinset]
          rcases eq_or_ne k topic with rfl | hk
          · rw [← Multiset.count_pos, ← Multiset.count_pos, Multiset.count_erase_self]
            omega
          · exact Multiset.mem_erase_of_ne hk
        simp [request, hzero, hlast, hsame]
    · simp [request, hone, hzero]

theorem replay_subscriptions (topics : List (List UInt8)) (now : Finset (List UInt8)) :
    (topics.map subscription).foldlM hear now = some (now ∪ topics.toFinset) := by
  induction topics generalizing now with
  | nil => simp
  | cons topic topics ih =>
    have hfirst : hear now (subscription topic) = some (insert topic now) := by
      simp [hear, subscription]
    simp [hfirst, ih]

end Replay

/-- A publisher that is not in manual mode and holds the given topics for each pipe. -/
structure Mirrors (x : Xpub Pipe) (topics : Pipe → Finset (List UInt8)) : Prop where
  manual : x.manual = false
  ordered : Ordered x.dist
  more : x.more = x.dist.more
  refines : ∃ set, Mtries.Refines x.subscriptions set ∧
    ∀ topic q, (topic, q) ∈ set ↔ topic ∈ topics q

section Mirrors
variable {pipe : Pipe} {next : Finset (List UInt8)} {x : Xpub Pipe}
  {topics : Pipe → Finset (List UInt8)}
variable (h : Mirrors x topics)
include h

omit [DecidableEq Pipe] in
theorem Mirrors.congr {topics' : Pipe → Finset (List UInt8)} (heq : ∀ q, topics' q = topics q) :
    Mirrors x topics' := by
  rwa [show topics' = topics from funext heq]

theorem Mirrors.retopic {x' : Xpub Pipe} {set : Finset (List UInt8 × Pipe)}
    (hframe : x'.dist = x.dist ∧ x'.more = x.more ∧ x'.manual = x.manual)
    (hrefines : Mtries.Refines x'.subscriptions set)
    (hown : ∀ topic, (topic, pipe) ∈ set ↔ topic ∈ next)
    (hrest : ∀ topic q, q ≠ pipe → ((topic, q) ∈ set ↔ topic ∈ topics q)) :
    Mirrors x' (update topics pipe next) := by
  obtain ⟨hdist, hmore, hmanual⟩ := hframe
  constructor
  · rw [hmanual, h.manual]
  · rw [hdist]
    exact h.ordered
  · rw [hdist, hmore, h.more]
  · refine ⟨set, hrefines, ?_⟩
    intro topic q
    rcases eq_or_ne q pipe with rfl | hq
    · rw [update_self, hown]
    · rw [update_of_ne hq, hrest topic q hq]

/-- A subscription, or an unsubscription from a topic that is held. -/
theorem Mirrors.readSubscription (add : Bool) (topic data : List UInt8)
    (hin : add = false → topic ∈ topics pipe) :
    ∃ x', x.readSubscription pipe add topic data = some x' ∧ x'.dist = x.dist ∧
      Mirrors x' (update topics pipe
        (if add then insert topic (topics pipe) else (topics pipe).erase topic)) := by
  obtain ⟨set, hset, hmem⟩ := h.refines
  cases add with
  | true =>
    obtain ⟨trie, first, htrie, -, hadded⟩ := hset.add topic pipe
    obtain ⟨x', hx', rfl, hframe⟩ :=
      Xpubs.readSubscription_frame h.manual true topic data htrie
    refine ⟨x', hx', hframe.1, h.retopic hframe hadded ?_ ?_⟩
    · intro k
      simp [hmem]
    · intro k q hq
      simp [hmem, hq]
  | false =>
    have hheld : (topic, pipe) ∈ set := (hmem topic pipe).mpr (hin rfl)
    obtain ⟨trie, last, htrie, -, hremoved⟩ := hset.rm_removable topic pipe (.inl hheld)
    obtain ⟨x', hx', rfl, hframe⟩ :=
      Xpubs.readSubscription_frame h.manual false topic data htrie
    refine ⟨x', hx', hframe.1, h.retopic hframe hremoved ?_ ?_⟩
    · intro k
      simp [hmem]
    · intro k q hq
      simp [hmem, hq]

theorem Mirrors.readFrame {m : Msg} (hm : hear (topics pipe) m = some next) :
    ∃ x', x.readFrame pipe m = some x' ∧ x'.dist = x.dist ∧
      Mirrors x' (update topics pipe next) := by
  have hpend (data : List UInt8) (flags : Flags) :
      Mirrors (x.pend data flags) (update topics pipe (topics pipe)) := by
    rw [update_eq_self]
    exact { h with }
  unfold hear at hm
  unfold Xpub.readFrame
  cases hdata : m.data with
  | nil =>
    simp only [hdata] at hm
    cases hm
    exact ⟨_, rfl, rfl, hpend [] m.flags⟩
  | cons first topic =>
    simp only [hdata] at hm
    dsimp only
    by_cases hzero : first = 0
    · by_cases hin : topic ∈ topics pipe
      · rw [if_pos hzero, if_pos hin] at hm
        cases hm
        rw [if_pos hzero]
        exact h.readSubscription false topic (first :: topic) fun _ => hin
      · rw [if_pos hzero, if_neg hin] at hm
        cases hm
    · rw [if_neg hzero] at hm
      by_cases hone : first = 1
      · rw [if_pos hone] at hm
        cases hm
        rw [if_neg hzero, if_pos hone]
        exact h.readSubscription true topic (first :: topic) (by simp)
      · rw [if_neg hone] at hm
        cases hm
        rw [if_neg hzero, if_neg hone]
        exact ⟨_, rfl, rfl, hpend (first :: topic) m.flags⟩

theorem Mirrors.xreadActivated (pipe : Pipe) (frames : List Msg)
    (hframes : frames.foldlM hear (topics pipe) = some next) :
    ∃ x', x.xreadActivated pipe frames = some x' ∧ x'.dist = x.dist ∧
      Mirrors x' (update topics pipe next) := by
  induction frames generalizing x topics with
  | nil =>
    cases hframes
    exact ⟨x, rfl, rfl, h.congr (by simp)⟩
  | cons m frames ih =>
    obtain ⟨one, hone, hlater⟩ := bind_eq_some_iff.mp hframes
    obtain ⟨x₁, hx₁, hdist₁, hmirrors⟩ := h.readFrame hone
    obtain ⟨x', hx', hdist, hmirrors'⟩ := ih hmirrors (by simpa using hlater)
    refine ⟨x', by simp [Xpub.xreadActivated, hx₁, hx'], hdist.trans hdist₁, ?_⟩
    exact hmirrors'.congr (by simp)

theorem Mirrors.xattachPipe (frames : List Msg) (hnew : pipe ∉ x.dist.pipes.items)
    (hframes : frames.foldlM hear (topics pipe) = some next) :
    ∃ x', x.xattachPipe pipe false true frames = some x' ∧
      Mirrors x' (update topics pipe next) := by
  obtain ⟨dist, hdist, hshows⟩ := h.ordered.shows.attach hnew
  have hattached : Mirrors { x with dist := dist } topics := by
    refine { h with ordered := ?_, more := ?_ }
    · exact hshows.ordered
    · exact h.more.trans hshows.more.symm
  obtain ⟨x', hx', -, hmirrors⟩ := hattached.xreadActivated pipe frames hframes
  exact ⟨x', by simp [Xpub.xattachPipe, hdist, hx'], hmirrors⟩

theorem Mirrors.xsend (m : Msg) (c : Content) (room : Pipe → Bool) (ok : Nat → Pipe → Bool) :
    ∃ r, x.xsend m c room ok = some r ∧ Mirrors r.socket topics := by
  obtain ⟨set, hset, hmem⟩ := h.refines
  have hfits : Fits x x.dist.view := ⟨hset.sound, h.ordered.shows, h.more⟩
  obtain ⟨dist, more, log, hr, hordered, hmore, -⟩ := hfits.xsend m c room ok
  exact ⟨_, hr, h.manual, hordered, hmore, set, hset, hmem⟩

omit [DecidableEq Pipe] in
theorem Mirrors.of_xrecv {x' : Xpub Pipe} {frame : List UInt8 × Flags}
    (hrecv : x.xrecv = some (x', frame)) : Mirrors x' topics := by
  obtain ⟨data, flags, rfl⟩ := Xpubs.of_xrecv h.manual hrecv
  exact { h with }

theorem Mirrors.xsetsockopt (option : Xpub.SockOpt) (hoption : option ≠ .manual true) :
    ∃ x', x.xsetsockopt option = some x' ∧ Mirrors x' topics := by
  have hmanual := h.manual
  cases option with
  | manual value =>
    cases value with
    | false => exact ⟨_, rfl, rfl, h.ordered, h.more, h.refines⟩
    | true => exact absurd rfl hoption
  | subscribe | unsubscribe => exact ⟨x, by simp [Xpub.xsetsockopt, hmanual], h⟩
  | _ => exact ⟨_, rfl, hmanual, h.ordered, h.more, h.refines⟩

end Mirrors

/-- The queue of a pipe leads to what its publisher should hold. -/
structure Inv (owner : Pipe → Socket) (s : Network Socket Pipe) (held : Multiset (List UInt8))
    (topics : Pipe → Finset (List UInt8)) : Prop where
  steady : Steady s.xsub
  counts : Tries.Refines s.xsub.subscriptions held
  mirrors : ∀ socket, Mirrors (s.xpubs socket) fun q => if owner q = socket then topics q else ∅
  replays : ∀ q ∈ s.xsub.dist.pipes.items, (s.queues q).foldlM hear (topics q) = some held.toFinset
  silent : ∀ q, q ∉ s.xsub.dist.pipes.items → s.queues q = [] ∧ topics q = ∅

section Inv
variable {pipe : Pipe} {owner : Pipe → Socket} {s : Network Socket Pipe}
  {held : Multiset (List UInt8)}
variable {topics : Pipe → Finset (List UInt8)}

theorem inv_initial (h : Initial s) : Inv owner s 0 fun _ => ∅ := by
  constructor
  · rw [h.xsub]
    exact Xsubs.steady_new
  · rw [h.xsub]
    exact Tries.new_refines
  · intro socket
    constructor
    · exact h.manual socket
    · rw [h.dist]
      exact Distributors.shows_new.ordered
    · rw [h.dist, h.more]
    · refine ⟨∅, ?_, by simp⟩
      rw [h.subscriptions]
      exact Mtries.new_refines
  · intro q hq
    rw [h.xsub] at hq
    cases hq
  · intro q _
    exact ⟨h.queues q, rfl⟩

section
variable (h : Inv owner s held topics)
include h

theorem Inv.setXpub {x : Xpub Pipe} {socket : Socket}
    (hx : Mirrors x fun q => if owner q = socket then topics q else ∅) :
    Inv owner (s.setXpub socket x) held topics := by
  refine { h with mirrors := ?_ }
  intro other
  rcases eq_or_ne other socket with rfl | hother
  · simpa [Network.setXpub] using hx
  · simpa [Network.setXpub, hother] using h.mirrors other

/-- The topics after the first `n` messages of a pipe. -/
theorem Inv.replay_take (pipe : Pipe) (n : Nat) :
    ∃ next, ((s.queues pipe).take n).foldlM hear (topics pipe) = some next ∧
      (pipe ∈ s.xsub.dist.pipes.items →
        ((s.queues pipe).drop n).foldlM hear next = some held.toFinset) ∧
      (pipe ∉ s.xsub.dist.pipes.items → next = ∅) := by
  by_cases hin : pipe ∈ s.xsub.dist.pipes.items
  · have hreplays := h.replays pipe hin
    rw [← List.take_append_drop n (s.queues pipe), List.foldlM_append] at hreplays
    obtain ⟨next, hnext, hlater⟩ := bind_eq_some_iff.mp hreplays
    exact ⟨next, hnext, fun _ => hlater, fun hout => absurd hin hout⟩
  · obtain ⟨hqueue, htopics⟩ := h.silent pipe hin
    exact ⟨∅, by simp [hqueue, htopics], fun hin' => absurd hin' hin, fun _ => rfl⟩

/-- A publisher has read the first `n` messages of one of its pipes. -/
theorem Inv.consume {x : Xpub Pipe} {next : Finset (List UInt8)} {n : Nat}
    (hx : Mirrors x (update (fun q => if owner q = owner pipe then topics q else ∅) pipe next))
    (hlater : pipe ∈ s.xsub.dist.pipes.items →
      ((s.queues pipe).drop n).foldlM hear next = some held.toFinset)
    (hout : pipe ∉ s.xsub.dist.pipes.items → next = ∅) :
    Inv owner ((s.setXpub (owner pipe) x).consume pipe n) held (update topics pipe next) := by
  constructor
  · exact h.steady
  · exact h.counts
  · intro socket
    by_cases hsocket : socket = owner pipe
    · subst hsocket
      simp only [Network.consume, Network.setXpub, update_self]
      refine hx.congr ?_
      intro q
      rcases eq_or_ne q pipe with rfl | hq
      · simp
      · simp [hq]
    · simp only [Network.consume, Network.setXpub, update_of_ne hsocket]
      refine (h.mirrors socket).congr ?_
      intro q
      rcases eq_or_ne q pipe with rfl | hq
      · simp [Ne.symm hsocket]
      · simp [hq]
  · intro q hq
    rcases eq_or_ne q pipe with rfl | hpipe
    · simpa [Network.consume, Network.setXpub] using hlater hq
    · simpa [Network.consume, Network.setXpub, hpipe] using h.replays q hq
  · intro q hq
    obtain ⟨hqueue, htopics⟩ := h.silent q hq
    rcases eq_or_ne q pipe with rfl | hpipe
    · simp [Network.consume, Network.setXpub, hqueue, hout hq]
    · simp [Network.consume, Network.setXpub, hpipe, hqueue, htopics]

theorem Inv.read (pipe : Pipe) (n : Nat) :
    ∃ t topics', step owner s (.read pipe n) = some t ∧ Inv owner t held topics' := by
  obtain ⟨next, hnext, hlater, hout⟩ := h.replay_take pipe n
  obtain ⟨x, hx, -, hmirrors⟩ :=
    (h.mirrors (owner pipe)).xreadActivated pipe _ (by simpa using hnext)
  exact ⟨_, _, by rw [step, hx, map_some], h.consume hmirrors hlater hout⟩

theorem Inv.attachXpub (n : Nat) (hnew : pipe ∉ (s.xpubs (owner pipe)).dist.pipes.items) :
    ∃ t topics', step owner s (.attachXpub pipe n) = some t ∧ Inv owner t held topics' := by
  obtain ⟨next, hnext, hlater, hout⟩ := h.replay_take pipe n
  obtain ⟨x, hx, hmirrors⟩ :=
    (h.mirrors (owner pipe)).xattachPipe _ hnew (by simpa using hnext)
  exact ⟨_, _, by rw [step, hx, map_some], h.consume hmirrors hlater hout⟩

theorem Inv.attachXsub (hnew : pipe ∉ s.xsub.dist.pipes.items) :
    ∃ t, step owner s (.attachXsub pipe) = some t ∧ Inv owner t held topics := by
  obtain ⟨x, calls, hx, hattached⟩ := h.steady.xattachPipe h.counts hnew
  obtain ⟨hqueue, htopics⟩ := h.silent pipe hnew
  refine ⟨_, by rw [step, hx, map_some], ?_⟩
  constructor
  · exact hattached.steady
  · rw [hattached.subscriptions]
    exact h.counts
  · exact h.mirrors
  · intro q hq
    rcases eq_or_ne q pipe with rfl | hpipe
    · have hcalls : calls.toFinset = held.toFinset := by
        ext topic
        rw [List.mem_toFinset, Multiset.mem_toFinset, hattached.topics]
      simp [hqueue, htopics, replay_subscriptions, hcalls]
    · have hin := ((hattached.mem q).mp hq).resolve_right hpipe
      simpa [hpipe] using h.replays q hin
  · intro q hq
    have hout : q ∉ s.xsub.dist.pipes.items := fun hin => hq ((hattached.mem q).mpr (.inl hin))
    have hne : q ≠ pipe := fun heq => hq ((hattached.mem q).mpr (.inr heq))
    simpa [hne] using h.silent q hout

theorem Inv.send {m : Msg} (c : Content) (hmore : m.flags.more = false)
    (hcounted : Counted s (.send m c : Input Socket Pipe)) :
    ∃ t held', step owner s (.send m c) = some t ∧ Inv owner t held' topics := by
  have hcount (topic : List UInt8) (hdata : m.data = 1 :: topic) :
      held.count topic < 2 ^ 32 - 1 := by
    have := hcounted (by rw [hdata]; rfl)
    rwa [h.counts.count, hdata] at this
  obtain ⟨r, hr, hforwards⟩ := h.steady.xsend h.counts hmore c hcount
  have hhear := hear_request held m
  refine ⟨_, (request held m.data).1, by rw [step, hr, map_some], ?_⟩
  constructor
  · exact hforwards.steady
  · exact hforwards.refines
  · exact h.mirrors
  · intro q hq
    have hin := (hforwards.mem q).mp hq
    have hreplays := h.replays q hin
    by_cases hforwarded : (request held m.data).2 = true
    · rw [if_pos hforwarded] at hhear
      have hlog := (hforwards.log q).mpr ⟨hin, hforwarded⟩
      simp [hlog, List.foldlM_append, hreplays, hhear]
    · rw [if_neg hforwarded] at hhear
      have hlog : (q, true) ∉ r.log := fun hlog => hforwarded ((hforwards.log q).mp hlog).2
      simp [hlog, hreplays, hhear]
  · intro q hq
    have hout : q ∉ s.xsub.dist.pipes.items := fun hin => hq ((hforwards.mem q).mpr hin)
    have hlog : (q, true) ∉ r.log := fun hlog => hout ((hforwards.log q).mp hlog).1
    simpa [hlog] using h.silent q hout

theorem Inv.step (i : Input Socket Pipe) (hguard : Guard owner s i) :
    ∃ t held' topics', step owner s i = some t ∧ Inv owner t held' topics' := by
  obtain ⟨hallowed, hcounted⟩ := hguard
  cases i with
  | attachXsub pipe =>
    obtain ⟨t, ht, hinv⟩ := h.attachXsub hallowed
    exact ⟨t, _, _, ht, hinv⟩
  | attachXpub pipe n =>
    obtain ⟨t, topics', ht, hinv⟩ := h.attachXpub n hallowed
    exact ⟨t, _, _, ht, hinv⟩
  | send m c =>
    obtain ⟨t, held', ht, hinv⟩ := h.send c hallowed hcounted
    exact ⟨t, _, _, ht, hinv⟩
  | read pipe n =>
    obtain ⟨t, topics', ht, hinv⟩ := h.read pipe n
    exact ⟨t, _, _, ht, hinv⟩
  | publish socket m c room ok =>
    obtain ⟨r, hr, hmirrors⟩ := (h.mirrors socket).xsend m c room ok
    exact ⟨_, _, _, by rw [XsubReplication.step, hr, map_some], h.setXpub hmirrors⟩
  | recv socket =>
    cases hrecv : (s.xpubs socket).xrecv with
    | none => exact ⟨s, _, _, by simp only [XsubReplication.step, hrecv], h⟩
    | some r =>
      exact ⟨_, _, _, by simp only [XsubReplication.step, hrecv],
        h.setXpub ((h.mirrors socket).of_xrecv hrecv)⟩
  | setsockopt socket option =>
    have hoption : option ≠ .manual true := by
      rintro rfl
      cases hallowed
    obtain ⟨x, hx, hmirrors⟩ := (h.mirrors socket).xsetsockopt option hoption
    exact ⟨_, _, _, by rw [XsubReplication.step, hx, map_some], h.setXpub hmirrors⟩

theorem Inv.replicated : Replicated owner s := by
  constructor
  · intro i hguard
    obtain ⟨t, -, -, ht, -⟩ := h.step i hguard
    rw [ht]
    rfl
  · intro pipe hin hempty topic
    obtain ⟨set, hset, hmem⟩ := (h.mirrors (owner pipe)).refines
    have hfinal := h.replays pipe hin
    rw [hempty] at hfinal
    have htopics : topics pipe = held.toFinset := some.inj hfinal
    rw [(hset.keeps topic).mem, hmem, if_pos rfl, htopics, Multiset.mem_toFinset, h.counts.count,
      Multiset.count_pos]

end

end Inv

/-- In every run in which no counter overflows no assertion fails, and a publisher that has read
all messages from a pipe holds for it what the subscriber subscribes to. -/
theorem replicated_of_reach {owner : Pipe → Socket} {s : Network Socket Pipe}
    (h : Reach Initial (Guard owner) (step owner) s) : Replicated owner s := by
  have hinv : ∃ held topics, Inv owner s held topics := by
    refine h.invariant_of_progress (P := fun s => ∃ held topics, Inv owner s held topics) ?_ ?_
    · intro s hinitial
      exact ⟨0, _, inv_initial hinitial⟩
    · rintro s i ⟨held, topics, hinv⟩ met
      obtain ⟨t, held', topics', ht, hinv'⟩ := hinv.step i met
      exact ⟨t, ht, held', topics', hinv'⟩
  obtain ⟨held, topics, hinv⟩ := hinv
  exact hinv.replicated

/-- Two publishers with three pipes. One pipe is attached after an unsubscription, and the messages
to another one are read in between. -/
def lateRun : List (Input Bool Nat) :=
  [.attachXsub 0, .send { data := [1, 7] } {}, .attachXpub 0 1, .send { data := [1, 7, 8] } {},
    .send { data := [1, 7] } {}, .attachXpub 1 5, .attachXsub 1, .read 0 1,
    .send { data := [0, 7] } {}, .recv true,
    .publish true { data := [7] } {} (fun _ => true) (fun _ _ => true),
    .send { data := [0, 9] } {}, .send { data := [5] } {}, .send { data := [0, 7] } {},
    .setsockopt true (.verbose true), .attachXsub 2, .attachXpub 2 0, .read 0 9, .read 1 9]

theorem lateRun_replicated :
    ∃ s : Network Bool Nat, Reach Initial (Guard (· != 1)) (step (· != 1)) s ∧
      (s.xsub.dist.pipes.items = [0, 1, 2] ∧ (s.queues 0, s.queues 1, s.queues 2) =
        ([], [], [{ data := [1, 7, 8] }])) ∧ Replicated (· != 1) s := by
  refine Reach.of_exec_right (s := {}) (Guard (· != 1)) (step (· != 1)) lateRun ?_
    (by constructor <;> intros <;> rfl) fun s hs => replicated_of_reach hs
  decide +kernel

section Overflow

/-- A publisher and the subscriber are connected by one pipe. -/
def connected : Network Unit Unit where
  xsub := {
    fq := { rota := { slots := ⟨[()], by decide⟩, active := 1 } }
    dist := { pipes := ⟨[()], by decide⟩, active := 1, eligible := 1 } }
  xpubs _ := { dist := { pipes := ⟨[()], by decide⟩, active := 1, eligible := 1 } }

/-- The subscriber has subscribed to the empty topic, and its counter has the given value. -/
def repeated (refcnt : Nat) : Network Unit Unit where
  xsub := {
    connected.xsub with
    dist := { connected.xsub.dist with matching := 1 }
    subscriptions := .mk refcnt {} }
  xpubs _ := {
    connected.xpubs () with
    subscriptions := .mk (some [()]) {}, pendingData := [[1]], pendingFlags := [{}] }

theorem connected_exec :
    Runs.exec (Allowed id) (step id) connected [.send { data := [1] } {}, .read () 1] =
      some (repeated 1) := rfl

theorem repeated_exec (refcnt : Nat) :
    Runs.exec (Allowed id) (step id) (repeated refcnt) [.send { data := [1] } {}, .read () 1] =
      some (repeated ((refcnt + 1) % 2 ^ 32)) := rfl

theorem reach_connected : Reach Initial (Allowed id) (step id) connected := by
  have hinitial : Initial ({} : Network Unit Unit) := by constructor <;> intros <;> rfl
  have hattach : Runs.exec (Allowed id) (step id) ({} : Network Unit Unit)
      [.attachXsub (), .attachXpub () 0] = some connected := rfl
  exact .exec _ _ _ (.start hinitial) hattach

theorem reach_repeated (n : Nat) :
    Reach Initial (Allowed id) (step id) (repeated ((n + 1) % 2 ^ 32)) := by
  induction n with
  | zero => exact .exec _ _ _ reach_connected connected_exec
  | succ n ih =>
    have hnext := Reach.exec _ _ _ ih (repeated_exec ((n + 1) % 2 ^ 32))
    rwa [Nat.mod_add_mod] at hnext

end Overflow

/-- After `2 ^ 32` subscriptions to the empty topic the counter of the subscriber is zero, although
the publisher has read all messages and holds the topic. -/
theorem overflow_loses_topic :
    ∃ s : Network Unit Unit, Reach Initial (Allowed id) (step id) s ∧
      () ∈ s.xsub.dist.pipes.items ∧ s.queues () = [] ∧
      () ∈ ((s.xpubs (id ())).subscriptions.get subscribers []).getD [] ∧
      s.xsub.subscriptions.get refcnts [] = 0 := by
  have hreach := reach_repeated (2 ^ 32 - 1)
  exact ⟨repeated 0, hreach, by decide, rfl, by decide, rfl⟩

end Uzmq.XsubReplication
