import Uzmq.DistributorSends
import Uzmq.MtrieSubscriptions
import Uzmq.Xpubs

/-!
# How a publishing socket selects pipes

`xsend` in terms of the view of the distributor. The selection of the first part of a message
starts from the pipes that are marked as matching already.
-/

namespace Uzmq.Xpubs

open Message
open ByteTrie (Node)
open Mtries (Refines hold subscribers)
open Distributors (Distributor Content View Shows SendsTo Ordered)

variable {Pipe : Type} [DecidableEq Pipe]

/-- What a frame says about the subscriptions of a pipe. -/
def subscribe (held : Finset (List UInt8 × Pipe)) (pipe : Pipe) (data : List UInt8) :
    Finset (List UInt8 × Pipe) :=
  match data with
  | [] => held
  | first :: topic =>
    if first = 0 then hold held (.rm topic pipe)
    else if first = 1 then hold held (.add topic pipe)
    else held

/-- One of the topics of a pipe starts the data. -/
def subscribed (held : Finset (List UInt8 × Pipe)) (pipe : Pipe) (data : List UInt8) : Bool :=
  decide (∃ x ∈ held, x.2 = pipe ∧ x.1 <+: data)

variable {d : Distributor Pipe}

theorem markAsMatching_shows {v : View Pipe} (pipes : List Pipe) (h : Shows d v)
    (hmore : d.more = false) :
    ∃ d', Xpub.markAsMatching d pipes = some d' ∧ d'.more = false ∧
      Shows d' { v with matching := fun q => v.matching q ∨ (q ∈ pipes ∧ v.eligible q) } := by
  induction pipes generalizing d v with
  | nil =>
    refine ⟨d, rfl, hmore, h.congr (fun _ => Iff.rfl) ?_ (fun _ => Iff.rfl) (fun _ => Iff.rfl) rfl⟩
    intro q
    simp
  | cons pipe pipes ih =>
    obtain ⟨d₁, hd₁, hshows⟩ := h.matchPipe pipe hmore
    have hmore₁ : d₁.more = false := by
      rw [hshows.more, ← hmore, h.more]
      rfl
    obtain ⟨d', hd', hmore', hshows'⟩ := ih hshows hmore₁
    refine ⟨d', by simp [Xpub.markAsMatching, hd₁, hd'], hmore',
      hshows'.congr (fun _ => Iff.rfl) ?_ (fun _ => Iff.rfl) (fun _ => Iff.rfl) rfl⟩
    intro q
    simp only [View.matchPipe, List.mem_cons]
    constructor
    · rintro (hq | ⟨rfl | hq, helig⟩)
      · exact .inl (.inl hq)
      · exact .inl (.inr ⟨rfl, helig⟩)
      · exact .inr ⟨hq, helig⟩
    · rintro ((hq | ⟨rfl, helig⟩) | ⟨hq, helig⟩)
      · exact .inl hq
      · exact .inr ⟨.inl rfl, helig⟩
      · exact .inr ⟨.inr hq, helig⟩

/-- The pipes `match` calls back for. -/
def Xpub.called (x : Xpub Pipe) (data : List UInt8) : List Pipe :=
  (Mtries.matching x.subscriptions data).getD []

theorem mem_called {x : Xpub Pipe} {held : Finset (List UInt8 × Pipe)}
    (h : Refines x.subscriptions held) (pipe : Pipe) (data : List UInt8) :
    pipe ∈ x.called data ↔ subscribed held pipe data = true := by
  obtain ⟨pairs, -, hpairs, hmatching⟩ := h.matching data
  simp only [Xpub.called, hmatching, Option.getD_some, subscribed, decide_eq_true_eq, List.mem_map,
    hpairs]
  constructor
  · rintro ⟨x, ⟨hx, hpre⟩, rfl⟩
    exact ⟨x, hx, rfl, hpre⟩
  · rintro ⟨x, hx, rfl, hpre⟩
    exact ⟨x, ⟨hx, hpre⟩, rfl⟩

/-- The view of the distributor a part is sent with. -/
def Xpub.chosen (x : Xpub Pipe) (v : View Pipe) (data : List UInt8) : View Pipe :=
  if x.more then v
  else if x.invertMatching then
    { v with
      matching := fun q => v.eligible q ∧ ¬ (v.matching q ∨ (q ∈ x.called data ∧ v.eligible q)) }
  else { v with matching := fun q => v.matching q ∨ (q ∈ x.called data ∧ v.eligible q) }

section Views
variable (x : Xpub Pipe) (v : View Pipe) (data : List UInt8)
omit [DecidableEq Pipe]

@[simp] theorem chosen_attached : (x.chosen v data).attached = v.attached := by
  unfold Xpub.chosen
  split <;> [rfl; split <;> rfl]

@[simp] theorem chosen_active : (x.chosen v data).active = v.active := by
  unfold Xpub.chosen
  split <;> [rfl; split <;> rfl]

@[simp] theorem chosen_eligible : (x.chosen v data).eligible = v.eligible := by
  unfold Xpub.chosen
  split <;> [rfl; split <;> rfl]

@[simp] theorem chosen_more : (x.chosen v data).more = v.more := by
  unfold Xpub.chosen
  split <;> [rfl; split <;> rfl]

/-- The view after a part that `failed` pipes have not taken. -/
def nextPart (failed : Pipe → Prop) (more : Bool) : View Pipe :=
  if more then (v.without failed).sent more else ((v.without failed).sent more).unmatch

section
variable (failed : Pipe → Prop)
include failed

@[simp] theorem nextPart_attached (more : Bool) :
    (nextPart v failed more).attached = v.attached := by
  cases more <;> rfl

@[simp] theorem nextPart_more (more : Bool) : (nextPart v failed more).more = more := by
  cases more <;> rfl

@[simp] theorem nextPart_eligible (more : Bool) :
    (nextPart v failed more).eligible = fun q => v.eligible q ∧ ¬ failed q := by
  cases more <;> rfl

theorem nextPart_matching :
    (nextPart v failed true).matching = fun q => v.matching q ∧ ¬ failed q := rfl

end

end Views

/-- A socket whose distributor is in the middle of a message if the socket is. -/
structure Fits (x : Xpub Pipe) (v : View Pipe) : Prop where
  sound : Node.Sound subscribers x.subscriptions
  shows : Shows x.dist v
  more : x.more = x.dist.more

section Xsend
variable {x : Xpub Pipe} {v : View Pipe}

theorem Fits.select (h : Fits x v) (data : List UInt8) :
    ∃ d, (if x.more then some x.dist else x.selectPipes data) = some d ∧
      Shows d (x.chosen v data) := by
  by_cases hmore : x.more = true
  · refine ⟨x.dist, by simp [hmore], ?_⟩
    rw [Xpub.chosen, if_pos hmore]
    exact h.shows
  have hdist : x.dist.more = false := by
    rw [← h.more]
    simpa using hmore
  have hmatching := Mtries.matching_eq data h.sound
  have hcalled : Mtries.matching x.subscriptions data = some (x.called data) := by
    rw [Xpub.called, hmatching]
    rfl
  obtain ⟨d, hd, hnot, hshows⟩ := markAsMatching_shows (x.called data) h.shows hdist
  rw [if_neg hmore, Xpub.chosen, if_neg hmore, Xpub.selectPipes, hcalled]
  simp only [hd]
  by_cases hinvert : x.invertMatching = true
  · rw [if_pos hinvert, if_pos hinvert]
    obtain ⟨d', hd', hshows'⟩ := hshows.reverseMatch hnot
    exact ⟨d', hd', hshows'⟩
  · rw [if_neg hinvert, if_neg hinvert]
    exact ⟨d, rfl, hshows⟩

theorem checkHwm_iff (h : Shows d v) (room : Pipe → Bool) :
    d.checkHwm room = true ↔ ∀ q, v.matching q → room q = true := by
  have hma := h.matching_le
  have hae := h.active_le
  have hle := h.eligible_le
  unfold Distributor.checkHwm
  rw [List.all_eq_true]
  have hiff (q : Pipe) : q ∈ d.pipes.items.take d.matching ↔ v.matching q := by
    rw [← h.matching]
    constructor
    · intro hin
      exact (List.mem_take_iff_idxOf_lt (List.mem_of_mem_take hin)).mp hin
    · intro hlt
      have hin : q ∈ d.pipes.items := Slots.index_lt_size_iff.mp (by omega)
      exact (List.mem_take_iff_idxOf_lt hin).mpr hlt
  simp only [hiff]

theorem shows_nextPart {ok : Nat → Pipe → Bool} {more : Bool} {r : Distributor.Sent Pipe}
    (h : SendsTo ok v more r) :
    Shows (if more then r.dist else r.dist.unmatch)
      (nextPart v (fun q => (q, false) ∈ r.log) more) := by
  cases more with
  | true => exact h.shows
  | false => exact h.shows.unmatch

section
variable (h : Fits x v) (m : Msg) (c : Content) (room : Pipe → Bool) (ok : Nat → Pipe → Bool)
include h m c room ok

theorem Fits.xsend_sent
    (hroom : x.lossy = true ∨ ∀ q, (x.chosen v m.data).matching q → room q = true) :
    ∃ r, x.xsend m c room ok = some {
        socket := { x with
          dist := if m.flags.more then r.dist else r.dist.unmatch, more := m.flags.more }
        log := some r.log } ∧
      SendsTo ok (x.chosen v m.data) m.flags.more r := by
  obtain ⟨d, hd, hshows⟩ := h.select m.data
  obtain ⟨r, hr, hsends⟩ := hshows.sendToMatching m c ok
  refine ⟨r, ?_, hsends⟩
  have hcond : x.lossy = true ∨ d.checkHwm room = true := by
    rw [checkHwm_iff hshows]
    exact hroom
  unfold Xpub.xsend
  rw [hd]
  simp only [if_pos hcond, hr]

theorem Fits.xsend_refused
    (hroom : ¬ (x.lossy = true ∨ ∀ q, (x.chosen v m.data).matching q → room q = true)) :
    ∃ d, x.xsend m c room ok = some { socket := { x with dist := d }, log := none } ∧
      Shows d (x.chosen v m.data) := by
  obtain ⟨d, hd, hshows⟩ := h.select m.data
  refine ⟨d, ?_, hshows⟩
  have hcond : ¬ (x.lossy = true ∨ d.checkHwm room = true) := by
    rw [checkHwm_iff hshows]
    exact hroom
  unfold Xpub.xsend
  rw [hd]
  simp only [if_neg hcond]

/-- A call of `xsend` changes the distributor only, and keeps its pipes. -/
theorem Fits.xsend :
    ∃ d more log, x.xsend m c room ok = some { socket := { x with dist := d, more := more }, log } ∧
      Ordered d ∧ more = d.more ∧ ∀ q, q ∈ d.pipes.items ↔ v.attached q := by
  by_cases hroom : x.lossy = true ∨ ∀ q, (x.chosen v m.data).matching q → room q = true
  · obtain ⟨r, hr, hsends⟩ := h.xsend_sent m c room ok hroom
    have hshows := shows_nextPart hsends
    refine ⟨_, _, _, hr, hshows.ordered, ?_, ?_⟩
    · rw [hshows.more, nextPart_more]
    · intro q
      rw [hshows.attached, nextPart_attached, chosen_attached]
  · obtain ⟨d, hd, hshows⟩ := h.xsend_refused m c room ok hroom
    refine ⟨d, x.more, none, hd, hshows.ordered, ?_, ?_⟩
    · rw [h.more, hshows.more, chosen_more, h.shows.more]
    · intro q
      rw [hshows.attached, chosen_attached]

end

end Xsend

end Uzmq.Xpubs
