import Uzmq.Runs
import Uzmq.XpubSends

/-!
# What a publishing socket tells its user

An XPUB socket that is neither verbose nor manual queues a frame for the user when a topic gets
its first subscriber and when it loses the last one. The subscriptions that pipes have made and
not taken back, and everything that was ever queued, are recorded next to the socket.

A peer can take back a topic it has not subscribed to. If there is a node for the topic, an
assertion of `mtrie_t` fails or an unsubscription is queued that should not be.
-/

namespace Uzmq.XpubNotices

open Finset List Message
open Distributors (Distributor Content Ordered)
open Mtries (Refines Removable hold subscribers)
open Xpubs (Xpub Fits subscribe)
open Runs (Reach)

variable {Pipe : Type} [DecidableEq Pipe]

structure Watched (Pipe : Type) where
  socket : Xpub Pipe := {}
  held : Finset (List UInt8 × Pipe) := ∅
  queued : List (List UInt8) := []

inductive Input (Pipe : Type) where
  | attach (pipe : Pipe)
  /-- One turn of the loop of `xread_activated`. -/
  | read (pipe : Pipe) (sub : Msg)
  | terminated (pipe : Pipe)
  | writeActivated (pipe : Pipe)
  | send (m : Msg) (c : Content) (room : Pipe → Bool) (ok : Nat → Pipe → Bool)
  | recv
  | setsockopt (option : Xpub.SockOpt)

/-- The call has made a new socket, what it has queued is recorded. -/
def Watched.after (s : Watched Pipe) (held : Finset (List UInt8 × Pipe)) (socket : Xpub Pipe) :
    Watched Pipe where
  socket := socket
  held := held
  queued := s.queued ++ socket.pendingData.drop s.socket.pendingData.length

/-- A new pipe has room for the welcome message. It is not subscribed to everything from the
start, which is so for multicast only. -/
def step (s : Watched Pipe) : Input Pipe → Option (Watched Pipe)
  | .attach pipe => (s.socket.xattachPipe pipe false true []).map (s.after s.held)
  | .read pipe sub => (s.socket.readFrame pipe sub).map (s.after (subscribe s.held pipe sub.data))
  | .terminated pipe =>
    (s.socket.xpipeTerminated pipe).map (s.after (hold s.held (.rmPipe pipe true)))
  | .writeActivated pipe => (s.socket.xwriteActivated pipe).map (s.after s.held)
  | .send m c room ok => (s.socket.xsend m c room ok).map fun r => s.after s.held r.socket
  | .recv =>
    match s.socket.xrecv with
    | none => some s
    | some (socket, _) => some { s with socket := socket }
  | .setsockopt option => (s.socket.xsetsockopt option).map (s.after s.held)

/-- A topic is taken back by a pipe that has subscribed to it, or it is not empty and no topic
anybody has subscribed to starts with it. -/
def Permitted (held : Finset (List UInt8 × Pipe)) (pipe : Pipe) : List UInt8 → Prop
  | [] => True
  | first :: topic => first = 0 → Removable held topic pipe

def Guard (s : Watched Pipe) : Input Pipe → Prop
  | .attach pipe => pipe ∉ s.socket.dist.pipes.items
  | .read pipe sub => pipe ∈ s.socket.dist.pipes.items ∧ Permitted s.held pipe sub.data
  | .terminated pipe => pipe ∈ s.socket.dist.pipes.items
  | .writeActivated pipe => pipe ∈ s.socket.dist.pipes.items
  | .send _ _ _ _ => True
  | .recv => True
  | .setsockopt option =>
    match option with
    | .verbose _ => False
    | .verboser _ => False
    | .manual _ => False
    | _ => True

instance (held : Finset (List UInt8 × Pipe)) (pipe : Pipe) (data : List UInt8) :
    Decidable (Permitted held pipe data) := by
  cases data <;> unfold Permitted <;> infer_instance

instance (s : Watched Pipe) (i : Input Pipe) : Decidable (Guard s i) := by
  cases i with
  | setsockopt option => cases option <;> unfold Guard <;> infer_instance
  | _ => unfold Guard; infer_instance

/-- A socket without pipes that is neither verbose nor manual. -/
structure Initial (s : Watched Pipe) : Prop where
  type : s.socket.type = .xpub
  subscriptions : s.socket.subscriptions = .new subscribers
  dist : s.socket.dist = {}
  verboseSubs : s.socket.verboseSubs = false
  verboseUnsubs : s.socket.verboseUnsubs = false
  more : s.socket.more = false
  manual : s.socket.manual = false
  pendingData : s.socket.pendingData = []
  held : s.held = ∅
  queued : s.queued = []

/-- The frames about a topic, true for a subscription. -/
def notices (topic : List UInt8) (queued : List (List UInt8)) : List Bool :=
  queued.filterMap fun data =>
    if data = 1 :: topic then some true else if data = 0 :: topic then some false else none

/-- The frames alternate, the first one is a subscription, and so is the last one if and only if
there is a subscriber now. -/
structure Tells (frames : List Bool) (now : Prop) : Prop where
  alternate : frames.IsChain (· ≠ ·)
  first : frames.head? ≠ some false
  last : frames.getLast? = some true ↔ now

variable {first : Bool} {data : List UInt8} {x : Xpub Pipe} {held : Finset (List UInt8 × Pipe)}
  {pipe : Pipe}

section Tells
variable {frames : List Bool} {now now' : Prop}

theorem tells_nil (h : ¬ now) : Tells [] now := by
  constructor
  · exact isChain_nil
  · simp
  · simp [h]

section
variable (h : Tells frames now)
include h

theorem Tells.congr (hiff : now' ↔ now) : Tells frames now' := by
  rwa [propext hiff]

theorem Tells.subscription (hnot : ¬ now) (hnow : now') : Tells (frames ++ [true]) now' := by
  constructor
  · rw [isChain_append]
    refine ⟨h.alternate, isChain_singleton _, ?_⟩
    intro x hx y hy
    cases hy
    rintro rfl
    exact hnot (h.last.mp hx)
  · cases frames with
    | nil => simp
    | cons b rest => exact h.first
  · simp [hnow]

theorem Tells.unsubscription (hnow : now) (hnot : ¬ now') : Tells (frames ++ [false]) now' := by
  have hlast := h.last.mpr hnow
  constructor
  · rw [isChain_append]
    refine ⟨h.alternate, isChain_singleton _, ?_⟩
    intro x hx y hy
    cases hy
    rw [hlast] at hx
    cases hx
    simp
  · cases frames with
    | nil => simp at hlast
    | cons b rest => exact h.first
  · simp [hnot]

/-- The topic gets a subscriber, which is told if it is the first one. -/
theorem Tells.gain (hnow : now') (hfirst : first = true ↔ ¬ now) :
    Tells (frames ++ if first then [true] else []) now' := by
  cases first with
  | true => exact h.subscription (hfirst.mp rfl) hnow
  | false =>
    rw [if_neg Bool.false_ne_true, append_nil]
    exact h.congr (iff_of_true hnow (by simpa using hfirst))

/-- The topic may lose a subscriber, which is told if it was the last one. -/
theorem Tells.lose {lost : Prop} [Decidable lost] (hlost : lost ↔ now ∧ ¬ now')
    (hkept : now' → now) :
    Tells (frames ++ if lost then [false] else []) now' := by
  by_cases hl : lost
  · rw [if_pos hl]
    exact h.unsubscription (hlost.mp hl).1 (hlost.mp hl).2
  · rw [if_neg hl, append_nil]
    exact h.congr ⟨hkept, fun hnow => not_not.mp fun hnot => hl (hlost.mpr ⟨hnow, hnot⟩)⟩

end

theorem notices_append (topic : List UInt8) (a b : List (List UInt8)) :
    notices topic (a ++ b) = notices topic a ++ notices topic b :=
  filterMap_append

end Tells

section Notices
variable {topic : List UInt8}

theorem notices_subscription (topic other : List UInt8) :
    notices topic [1 :: other] = if topic = other then [true] else [] := by
  by_cases h : topic = other
  · simp [notices, h]
  · simp [notices, h, Ne.symm h]

theorem notices_unsubscription (topic other : List UInt8) :
    notices topic [0 :: other] = if topic = other then [false] else [] := by
  by_cases h : topic = other
  · simp [notices, h]
  · simp [notices, h, Ne.symm h]

theorem notices_other (h : ∀ first rest, data = first :: rest →
    first ≠ 0 ∧ first ≠ 1) : notices topic [data] = [] := by
  have hone : data ≠ 1 :: topic := fun heq => (h _ _ heq).2 rfl
  have hzero : data ≠ 0 :: topic := fun heq => (h _ _ heq).1 rfl
  simp [notices, hone, hzero]

/-- A pipe that goes away takes back each topic at most once. -/
theorem notices_unsubscriptions {topics : List (List UInt8)} (h : topics.Nodup) :
    notices topic (topics.map (0 :: ·)) = if topic ∈ topics then [false] else [] := by
  induction topics with
  | nil => rfl
  | cons other rest ih =>
    obtain ⟨hnot, hrest⟩ := nodup_cons.mp h
    have hcons : notices topic ((other :: rest).map (0 :: ·)) =
        notices topic [0 :: other] ++ notices topic (rest.map (0 :: ·)) :=
      notices_append topic [0 :: other] (rest.map (0 :: ·))
    rw [hcons, ih hrest, notices_unsubscription]
    rcases eq_or_ne topic other with rfl | heq
    · simp [hnot]
    · simp [heq]

end Notices

/-- The trie holds the subscriptions, all of them of attached pipes, and the user knows for which
topics there are some. -/
structure Inv (s : Watched Pipe) : Prop where
  type : s.socket.type = .xpub
  verboseSubs : s.socket.verboseSubs = false
  verboseUnsubs : s.socket.verboseUnsubs = false
  manual : s.socket.manual = false
  refines : Refines s.socket.subscriptions s.held
  ordered : Ordered s.socket.dist
  more : s.socket.more = s.socket.dist.more
  attached : ∀ x ∈ s.held, x.2 ∈ s.socket.dist.pipes.items
  tells : ∀ topic, Tells (notices topic s.queued) (∃ pipe, (topic, pipe) ∈ s.held)

structure SameOptions (x x' : Xpub Pipe) : Prop where
  type : x'.type = x.type
  verboseSubs : x'.verboseSubs = x.verboseSubs
  verboseUnsubs : x'.verboseUnsubs = x.verboseUnsubs
  manual : x'.manual = x.manual

section Steps
variable {s : Watched Pipe}

section
omit [DecidableEq Pipe]

theorem Inv.initial (h : Initial s) : Inv s := by
  refine { h with refines := ?_, ordered := ?_, more := ?_, attached := ?_, tells := ?_ }
  · rw [h.subscriptions, h.held]
    exact Mtries.new_refines
  · rw [h.dist]
    constructor <;> simp [Slots.size]
  · rw [h.more, h.dist]
  · simp [h.held]
  · intro topic
    rw [h.queued]
    exact tells_nil (by simp [h.held])

theorem Inv.after (h : Inv s) (frames : List (List UInt8)) (hoptions : SameOptions s.socket x)
    (hrefines : Refines x.subscriptions held) (hordered : Ordered x.dist)
    (hmore : x.more = x.dist.more) (hattached : ∀ y ∈ held, y.2 ∈ x.dist.pipes.items)
    (hpending : x.pendingData = s.socket.pendingData ++ frames)
    (htells : ∀ topic, Tells (notices topic s.queued ++ notices topic frames)
      (∃ pipe, (topic, pipe) ∈ held)) : Inv (s.after held x) := by
  constructor
  · exact hoptions.type.trans h.type
  · exact hoptions.verboseSubs.trans h.verboseSubs
  · exact hoptions.verboseUnsubs.trans h.verboseUnsubs
  · exact hoptions.manual.trans h.manual
  · exact hrefines
  · exact hordered
  · exact hmore
  · exact hattached
  · intro topic
    have hqueued : (s.after held x).queued = s.queued ++ frames := by
      simp [Watched.after, hpending]
    rw [hqueued, notices_append]
    exact htells topic

theorem Inv.redistribute (h : Inv s) (hoptions : SameOptions s.socket x)
    (hsubscriptions : x.subscriptions = s.socket.subscriptions)
    (hpending : x.pendingData = s.socket.pendingData) (hordered : Ordered x.dist)
    (hmore : x.more = x.dist.more)
    (hmem : ∀ q ∈ s.socket.dist.pipes.items, q ∈ x.dist.pipes.items) :
    Inv (s.after s.held x) := by
  refine h.after [] hoptions ?_ hordered hmore ?_ (by simp [hpending]) ?_
  · rw [hsubscriptions]
    exact h.refines
  · intro y hy
    exact hmem _ (h.attached y hy)
  · intro topic
    simpa [notices] using h.tells topic

end

section
variable (h : Inv s)
include h

theorem Inv.attach (hnew : pipe ∉ s.socket.dist.pipes.items) :
    ∃ t, step s (.attach pipe) = some t ∧ Inv t := by
  obtain ⟨d, hd, hshows⟩ := h.ordered.shows.attach hnew
  refine ⟨s.after s.held { s.socket with dist := d }, ?_, ?_⟩
  · simp [step, Xpubs.xattachPipe_eq, hd]
  · refine h.redistribute ⟨rfl, rfl, rfl, rfl⟩ rfl rfl hshows.ordered ?_ ?_
    · exact h.more.trans hshows.more.symm
    · intro q hq
      exact (hshows.attached q).mpr (.inl hq)

theorem Inv.writeActivated (hin : pipe ∈ s.socket.dist.pipes.items) :
    ∃ t, step s (.writeActivated pipe) = some t ∧ Inv t := by
  obtain ⟨d, hd, hdone⟩ := h.ordered.activated hin
  refine ⟨s.after s.held { s.socket with dist := d }, ?_, ?_⟩
  · simp [step, Xpub.xwriteActivated, hd]
  · refine h.redistribute ⟨rfl, rfl, rfl, rfl⟩ rfl rfl hdone.ordered ?_ ?_
    · exact h.more.trans hdone.more.symm
    · intro q hq
      exact (hdone.mem q).mpr hq

theorem Inv.send (m : Msg) (c : Content) (room : Pipe → Bool) (ok : Nat → Pipe → Bool) :
    ∃ t, step s (.send m c room ok) = some t ∧ Inv t := by
  have hfits : Fits s.socket s.socket.dist.view := ⟨h.refines.sound, h.ordered.shows, h.more⟩
  obtain ⟨d, more, log, hsend, hordered, hmore, hmem⟩ := hfits.xsend m c room ok
  refine ⟨s.after s.held { s.socket with dist := d, more := more }, by simp [step, hsend], ?_⟩
  refine h.redistribute ⟨rfl, rfl, rfl, rfl⟩ rfl rfl hordered hmore ?_
  intro q hq
  exact (hmem q).mpr hq

theorem Inv.tells_subscription (topic : List UInt8) (pipe : Pipe)
    (hfirst : first = true ↔ ∀ q, (topic, q) ∉ s.held) (other : List UInt8) :
    Tells (notices other s.queued ++ notices other (if first then [1 :: topic] else []))
      (∃ q, (other, q) ∈ insert (topic, pipe) s.held) := by
  have hframes : notices other (if first then [1 :: topic] else []) =
      if other = topic then (if first then [true] else []) else [] := by
    cases first with
    | true => exact notices_subscription other topic
    | false => simp [notices]
  rw [hframes]
  rcases eq_or_ne other topic with rfl | heq
  · rw [if_pos rfl]
    refine (h.tells other).gain ⟨pipe, mem_insert_self _ _⟩ ?_
    rw [hfirst, not_exists]
  · rw [if_neg heq, append_nil]
    refine (h.tells other).congr ?_
    simp [heq]

omit [DecidableEq Pipe] in
/-- Pipes take topics back; `lost` are the topics without subscribers after that. -/
theorem Inv.tells_unsubscription {lost : List (List UInt8)} (hnodup : lost.Nodup)
    (hsub : held ⊆ s.held)
    (hlost : ∀ topic, topic ∈ lost ↔ (∃ q, (topic, q) ∈ s.held) ∧ ¬ ∃ q, (topic, q) ∈ held)
    (topic : List UInt8) : Tells (notices topic s.queued ++ notices topic (lost.map (0 :: ·)))
      (∃ q, (topic, q) ∈ held) := by
  rw [notices_unsubscriptions hnodup]
  refine (h.tells topic).lose (hlost topic) ?_
  rintro ⟨q, hq⟩
  exact ⟨q, hsub hq⟩

theorem Inv.read_subscription (hin : pipe ∈ s.socket.dist.pipes.items) (topic : List UInt8) :
    ∃ x, s.socket.readSubscription pipe true topic (1 :: topic) = some x ∧
      Inv (s.after (insert (topic, pipe) s.held) x) := by
  obtain ⟨trie, first, htrie, hfirst, hrefines⟩ := h.refines.add topic pipe
  have hattached : ∀ y ∈ insert (topic, pipe) s.held, y.2 ∈ s.socket.dist.pipes.items := by
    intro y hy
    rcases mem_insert.mp hy with rfl | hy
    · exact hin
    · exact h.attached y hy
  have htells := h.tells_subscription topic pipe hfirst
  rw [Xpubs.readSubscription_eq h.manual, if_pos rfl, htrie, Option.map_some]
  refine ⟨_, rfl, ?_⟩
  cases first with
  | true =>
    rw [if_pos ⟨h.type, .inl rfl⟩]
    exact h.after _ ⟨rfl, rfl, rfl, rfl⟩ hrefines h.ordered h.more hattached rfl htells
  | false =>
    rw [if_neg (by simp [h.verboseSubs])]
    exact h.after _ ⟨rfl, rfl, rfl, rfl⟩ hrefines h.ordered h.more hattached
      (append_nil _).symm htells

end

theorem lost_erase (held : Finset (List UInt8 × Pipe)) (topic other : List UInt8) (pipe : Pipe) :
    ((∃ q, (other, q) ∈ held) ∧ ¬ ∃ q, (other, q) ∈ held.erase (topic, pipe)) ↔
      other = topic ∧ (topic, pipe) ∈ held ∧ ∀ q, (topic, q) ∈ held → q = pipe := by
  constructor
  · rintro ⟨⟨q, hq⟩, hnone⟩
    have hall (q' : Pipe) (hq' : (other, q') ∈ held) : other = topic ∧ q' = pipe := by
      by_contra hne
      refine hnone ⟨q', mem_erase.mpr ⟨?_, hq'⟩⟩
      intro heq
      exact hne (Prod.mk.inj heq)
    obtain ⟨rfl, rfl⟩ := hall q hq
    exact ⟨rfl, hq, fun q' hq' => (hall q' hq').2⟩
  · rintro ⟨rfl, hin, hall⟩
    refine ⟨⟨pipe, hin⟩, ?_⟩
    rintro ⟨q, hq⟩
    obtain ⟨hne, hq⟩ := mem_erase.mp hq
    exact hne (by rw [hall q hq])

theorem lost_filter (held : Finset (List UInt8 × Pipe)) (topic : List UInt8) (pipe : Pipe) :
    ((∃ q, (topic, q) ∈ held) ∧ ¬ ∃ q, (topic, q) ∈ held.filter fun y => y.2 ≠ pipe) ↔
      (topic, pipe) ∈ held ∧ ∀ q, (topic, q) ∈ held → q = pipe := by
  constructor
  · rintro ⟨⟨q, hq⟩, hnone⟩
    have hall (q' : Pipe) (hq' : (topic, q') ∈ held) : q' = pipe := by
      by_contra hne
      exact hnone ⟨q', mem_filter.mpr ⟨hq', hne⟩⟩
    obtain rfl := hall q hq
    exact ⟨hq, hall⟩
  · rintro ⟨hin, hall⟩
    refine ⟨⟨pipe, hin⟩, ?_⟩
    rintro ⟨q, hq⟩
    obtain ⟨hq, hne⟩ := mem_filter.mp hq
    exact hne (hall q hq)

section
variable (h : Inv s)
include h

theorem Inv.read_unsubscription {topic : List UInt8} (hremovable : Removable s.held topic pipe) :
    ∃ x, s.socket.readSubscription pipe false topic (0 :: topic) = some x ∧
      Inv (s.after (s.held.erase (topic, pipe)) x) := by
  obtain ⟨trie, last, htrie, hlast, hrefines⟩ := h.refines.rm_removable topic pipe hremovable
  have hattached : ∀ y ∈ s.held.erase (topic, pipe), y.2 ∈ s.socket.dist.pipes.items :=
    fun y hy => h.attached y (mem_of_mem_erase hy)
  have hlost (other : List UInt8) : other ∈ (if last then [topic] else []) ↔
      (∃ q, (other, q) ∈ s.held) ∧ ¬ ∃ q, (other, q) ∈ s.held.erase (topic, pipe) := by
    rw [lost_erase, ← hlast]
    cases last <;> simp
  have hnodup : (if last then [topic] else []).Nodup := by
    cases last <;> simp
  have htells := h.tells_unsubscription hnodup (erase_subset _ _) hlost
  rw [Xpubs.readSubscription_eq h.manual, if_neg Bool.false_ne_true, htrie, Option.map_some]
  refine ⟨_, rfl, ?_⟩
  cases last with
  | true =>
    rw [if_pos ⟨h.type, .inl rfl⟩]
    exact h.after _ ⟨rfl, rfl, rfl, rfl⟩ hrefines h.ordered h.more hattached rfl htells
  | false =>
    rw [if_neg (by simp [h.verboseSubs])]
    exact h.after _ ⟨rfl, rfl, rfl, rfl⟩ hrefines h.ordered h.more hattached
      (append_nil _).symm htells

omit [DecidableEq Pipe] in
theorem Inv.pend (flags : Flags)
    (hdata : ∀ first rest, data = first :: rest → first ≠ 0 ∧ first ≠ 1) :
    Inv (s.after s.held (s.socket.pend data flags)) := by
  refine h.after [data] ⟨rfl, rfl, rfl, rfl⟩ h.refines h.ordered h.more h.attached rfl ?_
  intro topic
  rw [notices_other hdata, append_nil]
  exact h.tells topic

theorem Inv.read {sub : Msg} (hin : pipe ∈ s.socket.dist.pipes.items)
    (hpermitted : Permitted s.held pipe sub.data) :
    ∃ t, step s (.read pipe sub) = some t ∧ Inv t := by
  cases hdata : sub.data with
  | nil =>
    refine ⟨_, by simp [step, Xpub.readFrame, hdata, subscribe]; rfl, h.pend sub.flags ?_⟩
    simp
  | cons first topic =>
    rcases eq_or_ne first 0 with rfl | hzero
    · rw [hdata] at hpermitted
      obtain ⟨x, hx, hinv⟩ := h.read_unsubscription (hpermitted rfl)
      exact ⟨_, by simp [step, Xpub.readFrame, hdata, hx, subscribe, hold], hinv⟩
    · rcases eq_or_ne first 1 with rfl | hone
      · obtain ⟨x, hx, hinv⟩ := h.read_subscription hin topic
        exact ⟨_, by simp [step, Xpub.readFrame, hdata, hx, subscribe, hold], hinv⟩
      · refine ⟨s.after s.held (s.socket.pend (first :: topic) sub.flags), ?_, h.pend sub.flags ?_⟩
        · simp [step, Xpub.readFrame, hdata, hzero, hone, subscribe]
        · rintro _ _ ⟨⟩
          exact ⟨hzero, hone⟩

theorem Inv.terminated (hin : pipe ∈ s.socket.dist.pipes.items) :
    ∃ t, step s (.terminated pipe) = some t ∧ Inv t := by
  obtain ⟨trie, lost, htrie, hnodup, hcalls, hrefines⟩ := h.refines.rmPipe pipe true
  obtain ⟨d, hd, hshows⟩ := h.ordered.shows.pipeTerminated hin
  have hlost (topic : List UInt8) : topic ∈ lost ↔
      (∃ q, (topic, q) ∈ s.held) ∧ ¬ ∃ q, (topic, q) ∈ s.held.filter fun y => y.2 ≠ pipe := by
    rw [lost_filter, hcalls]
    simp
  have htells := h.tells_unsubscription hnodup (filter_subset _ _) hlost
  have hattached : ∀ y ∈ s.held.filter (fun y => y.2 ≠ pipe), y.2 ∈ d.pipes.items := by
    intro y hy
    obtain ⟨hy, hne⟩ := mem_filter.mp hy
    exact (hshows.attached _).mpr ⟨h.attached y hy, hne⟩
  have hx := Xpubs.xpipeTerminated_eq pipe h.type h.manual
  rw [h.verboseUnsubs, Bool.not_false, htrie] at hx
  simp only [hd, Option.map_some] at hx
  refine ⟨_, by rw [step, hx, Option.map_some, hold], ?_⟩
  exact h.after _ ⟨rfl, rfl, h.verboseUnsubs.symm, rfl⟩ hrefines hshows.ordered
    (h.more.trans hshows.more.symm) hattached rfl htells

theorem Inv.recv : ∃ t, step s .recv = some t ∧ Inv t := by
  cases hrecv : s.socket.xrecv with
  | none => exact ⟨s, by simp [step, hrecv], h⟩
  | some r =>
    obtain ⟨x, frame⟩ := r
    obtain ⟨data, flags, rfl⟩ := Xpubs.of_xrecv h.manual hrecv
    refine ⟨{ s with socket := { s.socket with pendingData := data, pendingFlags := flags } },
      by simp [step, hrecv], ?_⟩
    exact { h with }

theorem Inv.setsockopt {option : Xpub.SockOpt} (hguard : Guard s (.setsockopt option)) :
    ∃ t, step s (.setsockopt option) = some t ∧ Inv t := by
  have hkept {x : Xpub Pipe} (hoptions : SameOptions s.socket x)
      (hsubscriptions : x.subscriptions = s.socket.subscriptions)
      (hpending : x.pendingData = s.socket.pendingData) (hdist : x.dist = s.socket.dist)
      (hmore : x.more = s.socket.more) : Inv (s.after s.held x) := by
    refine h.redistribute hoptions hsubscriptions hpending ?_ ?_ ?_
    · rw [hdist]
      exact h.ordered
    · rw [hmore, hdist]
      exact h.more
    · rw [hdist]
      exact fun q hq => hq
  cases option with
  | verbose | verboser | manual => exact hguard.elim
  | nodrop | welcomeMsg | invertMatching =>
    exact ⟨_, rfl, hkept ⟨rfl, rfl, rfl, rfl⟩ rfl rfl rfl rfl⟩
  | subscribe | unsubscribe =>
    refine ⟨s.after s.held s.socket, ?_, hkept ⟨rfl, rfl, rfl, rfl⟩ rfl rfl rfl rfl⟩
    simp [step, Xpub.xsetsockopt, h.manual]

theorem Inv.step (i : Input Pipe) (hi : Guard s i) : ∃ t, step s i = some t ∧ Inv t := by
  cases i with
  | attach pipe => exact h.attach hi
  | read pipe sub => exact h.read hi.1 hi.2
  | terminated pipe => exact h.terminated hi
  | writeActivated pipe => exact h.writeActivated hi
  | send m c room ok => exact h.send m c room ok
  | recv => exact h.recv
  | setsockopt option => exact h.setsockopt hi

end

end Steps

/-- No assertion fails in the next call, and the frames tell for each topic whether one of the
attached pipes subscribes to it. -/
structure Informs (s : Watched Pipe) : Prop where
  total : ∀ i, Guard s i → ∃ t, step s i = some t
  tells : ∀ topic, Tells (notices topic s.queued)
    (∃ pipe ∈ s.socket.dist.pipes.items, (topic, pipe) ∈ s.held)

theorem Inv.informs {s : Watched Pipe} (h : Inv s) : Informs s := by
  constructor
  · intro i hi
    obtain ⟨t, ht, -⟩ := h.step i hi
    exact ⟨t, ht⟩
  intro topic
  refine (h.tells topic).congr ?_
  constructor
  · rintro ⟨pipe, -, hin⟩
    exact ⟨pipe, hin⟩
  · rintro ⟨pipe, hin⟩
    exact ⟨pipe, h.attached _ hin, hin⟩

/-- In every run in which pipes take back only what they have subscribed to, or a topic without a
node, the user is told exactly when topics get their first and lose their last subscriber. -/
theorem informs_of_reach {s : Watched Pipe} (h : Reach Initial Guard step s) : Informs s := by
  refine Inv.informs (h.invariant_of_progress ?_ ?_)
  · intro s hs
    exact .initial hs
  · intro s i hinv hi
    exact hinv.step i hi

/-- Two pipes share a topic; one takes it back, the other one goes away. -/
def sharingRun : List (Input Nat) :=
  [.attach 0, .attach 1, .read 0 { data := [1, 7] }, .read 1 { data := [1, 7] },
    .read 1 { data := [1, 7] }, .read 0 { data := [0, 5] }, .read 0 { data := [0, 7] },
    .send { data := [7] } {} (fun _ => true) (fun _ _ => true), .recv, .terminated 1,
    .read 0 { data := [1, 7, 7] }]

theorem sharingRun_informs :
    ∃ s : Watched Nat, Reach Initial Guard step s ∧ s.queued = [[1, 7], [0, 7], [1, 7, 7]] ∧
      Informs s := by
  refine Reach.of_exec_right (s := {}) Guard step sharingRun ?_ (by constructor <;> rfl)
    fun s hs => informs_of_reach hs
  decide +kernel

/-- Pipe 0 subscribes to a topic that pipe 1 takes back, and an assertion fails; if pipe 0 has
subscribed to a longer topic, an unsubscription is queued that no subscription precedes. -/
theorem unsubscription_of_absent_topic :
    (∃ s ∈ Runs.exec Runs.Always step ({} : Watched Nat)
        [.attach 0, .attach 1, .read 0 { data := [1, 7] }],
      (step s (.read 1 { data := [0, 7] })).isNone = true) ∧
    ∃ s ∈ Runs.exec Runs.Always step ({} : Watched Nat)
        [.attach 0, .read 0 { data := [1, 7, 1] }, .read 0 { data := [0, 7] }],
      notices [7] s.queued = [false] := by
  constructor <;> decide +kernel

end Uzmq.XpubNotices
