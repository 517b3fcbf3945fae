import Uzmq.RepStages

/-!
# Replies go where the requests came from

Every turn and every part of a reply takes a request to its next stage. If the last part of a
request without a delimiter comes while the router has no pipe, `rollback` does nothing, and
`more_out` is left over for the next request.
-/

namespace Uzmq.Reps

open Option Function List
open Message
open Routers (Router Sink Table Frame Fetched idMsg)

variable {Pipe : Type} [DecidableEq Pipe]

section Turns
variable {s t : System Pipe} {stage : Stage Pipe} {p : Pipe} {frames : List Msg}
  {r : Router Pipe} {m : Msg}

section Calls
variable {rep : Rep Pipe}
variable (hcall : s.rep.call = some .recv)
include hcall

theorem turn_of_empty (hfetch : s.rep.router.fetch = some (r, .empty)) :
    s.turn = some { s with rep := { s.rep with router := r, call := none } } := by
  simp only [System.turn, hcall, Rep.recvTurn, hfetch]

theorem turn_of_dropped (hfetch : s.rep.router.fetch = some (r, .dropped)) :
    s.turn = some { s with rep := { s.rep with router := r } } := by
  unfold System.turn
  rw [hcall]
  simp only [Rep.recvTurn, hfetch]

theorem turn_of_label (hfetch : s.rep.router.fetch = some (r, .part m))
    (hbegins : s.rep.requestBegins = true)
    (hlabel : { s.rep with router := r }.label m = some rep) :
    s.turn = some (s.record rep m) := by
  unfold System.turn
  rw [hcall]
  simp only [Rep.recvTurn, hfetch, if_pos hbegins, hlabel, map_some]

theorem turn_of_body (hfetch : s.rep.router.fetch = some (r, .part m))
    (hbegins : ¬ s.rep.requestBegins = true) :
    s.turn = some (s.record ({ s.rep with router := r }.body m) m) := by
  unfold System.turn
  rw [hcall]
  simp only [Rep.recvTurn, hfetch, if_neg hbegins]

end Calls

section Fetches
variable {q : FairQueues.System Pipe} (hnot : ¬ r.prefetched = true)
include hnot

theorem fetch_empty (hrecv : r.recvpipe = some ({ r with queues := q }, none)) :
    r.fetch = some ({ r with queues := q }, .empty) := by
  unfold Router.fetch
  rw [if_neg hnot, hrecv]

theorem fetch_label (hrecv : r.recvpipe = some ({ r with queues := q }, some (p, m)))
    (hid : m.flags.routingId = true) : r.fetch = some ({ r with queues := q }, .dropped) := by
  unfold Router.fetch
  rw [if_neg hnot, hrecv]
  exact if_pos hid

theorem fetch_first (hmoreIn : ¬ r.moreIn = true)
    (hrecv : r.recvpipe = some ({ r with queues := q }, some (p, m)))
    (hpart : ¬ m.flags.routingId = true) :
    r.fetch = some ({ r with
      queues := q, prefetchedMsg := m, prefetched := true, currentIn := some p
      routingIdSent := true }, .part (idMsg (r.routingId p))) := by
  unfold Router.fetch
  rw [if_neg hnot, hrecv]
  exact (if_neg hpart).trans (if_neg hmoreIn)

theorem fetch_next (hplain : (talk r).Plain) (hmoreIn : r.moreIn = true)
    (hrecv : r.recvpipe = some ({ r with queues := q }, some (p, m)))
    (hpart : ¬ m.flags.routingId = true) :
    r.fetch = some (after { r with queues := q } m, .part m) := by
  unfold Router.fetch
  rw [if_neg hnot, hrecv]
  refine ((if_neg hpart).trans (if_pos hmoreIn)).trans ?_
  exact returned_eq (r := { r with queues := q }) hplain.anew m

end Fetches

theorem At.silent (h : At s .idle) (hsilent : Silent s.rep.router r s.known) (call : Option Call) :
    At { s with rep := { s.rep with router := r, call := call } } .idle := by
  cases h.shows with
  | idle free prefetched moreIn =>
    refine ⟨hsilent.link, .idle ⟨free.request, free.reply, free.requestBegins, free.sendingReply,
      ?_, hsilent.out.trans free.currentOut, ?_⟩ ?_ ?_, ?_, h.peer⟩
    · exact (congrArg Talk.moreOut hsilent.same).trans free.moreOut
    · intro q
      rw [hsilent.sinks]
      exact free.clear q
    · exact (congrArg Talk.prefetched hsilent.same).trans prefetched
    · exact (congrArg Talk.moreIn hsilent.same).trans moreIn
    · refine h.recorded.part ⟨rfl, rfl, ?_, ?_⟩ (fun _ => []) rfl ?_ ?_ fun _ => rfl
      · intro q
        rw [hsilent.sinks]
      · intro q
        rw [hsilent.sinks]
      · intro q
        rw [append_nil]
        exact hsilent.got q
      · intro q
        rfl

/-- The router after the first part of a request was read, before its routing id is pushed. -/
structure Fetching (s : System Pipe) (r : Router Pipe) (p : Pipe) (m : Msg) : Prop where
  link : Link r (Stage.addressed p m).mid s.known
  prefetched : r.prefetched = true
  prefetchedMsg : r.prefetchedMsg = m
  currentIn : r.currentIn = some p
  part : m.flags.routingId = false
  moreOut : r.moreOut = false
  out : r.currentOut = none
  sinks : r.sinks = s.rep.router.sinks
  recorded : Recorded { s with rep := { s.rep with router := r } } (.addressed p m)

theorem Fetching.mem_known (h : Fetching s r p m) : p ∈ s.known := by
  by_contra hnot
  have hgot : r.queues.got p = [] := h.link.fresh p (.inl hnot)
  have hpending := h.recorded.pending p
  rw [hgot] at hpending
  simp [Stage.pending, content] at hpending

theorem Fetching.address (h : Fetching s r p m) (hfree : Free s) (hcall : s.rep.call = some .recv)
    (hsent : r.routingIdSent = true) {id : Msg} (hmore : id.flags.more = true) (hid : id.data ≠ [])
    (hown : m.flags.more = true → r.target id.data = some p) :
    ∃ rep, { s.rep with router := r }.label id = some rep ∧
      At (s.record rep id) (.addressed p m) := by
  obtain ⟨r', hsend, haddressed⟩ := xsend_first h.link.plain h.moreOut h.out hmore
  have hlabel : { s.rep with router := r }.label id =
      some { s.rep with router := r', requestBegins := true } := by
    unfold Rep.label
    rw [if_pos hmore]
    simp only [hsend]
    simp [hid]
  have hin : r'.currentIn = some p := (congrArg Talk.currentIn haddressed.same).trans h.currentIn
  have hrecord : s.record { s.rep with router := r', requestBegins := true } id =
      { s with
        rep := { s.rep with router := r', requestBegins := true }
        request := some (p, [])
        writable := true }.observe := by
    unfold System.record
    simp only [hfree.request, hin]
    rfl
  refine ⟨_, hlabel, ?_⟩
  rw [hrecord]
  have hclear (q : Pipe) (halive : (r'.sinks q).alive = true) :
      (r'.sinks q).queue.unfinished = [] := by
    rw [haddressed.alive, h.sinks] at halive
    rw [haddressed.queue, h.sinks]
    exact hfree.clear q halive
  refine ⟨?_, .addressed ?_ ?_ ?_ ?_ ?_ ?_ ?_ ?_ ?_ ?_, ?_, ?_⟩
  · exact h.link.of_frame (haddressed.same ▸ h.link.plain.anew) haddressed.frame haddressed.queues
  · refine First.observe ⟨?_, ?_, hin, h.part⟩
    · exact (congrArg Talk.prefetched haddressed.same).trans h.prefetched
    · exact (congrArg Talk.prefetchedMsg haddressed.same).trans h.prefetchedMsg
  · exact (congrArg Talk.routingIdSent haddressed.same).trans hsent
  · exact hcall
  · rw [observe_request]
  · exact hfree.reply
  · rw [observe_rep]
  · exact hfree.sendingReply
  · exact congrArg Talk.moreOut haddressed.same
  · exact Clear.observe hclear
  · intro hm
    refine out_observe (show _ = some (p, ([] : List Msg)) from rfl) (fun q _ => hclear q) ?_
    rcases haddressed.out with ⟨p', htarget, hout⟩ | ⟨hout, hnot⟩
    · cases htarget.symm.trans (hown hm)
      exact .inl ⟨hout, hclear p⟩
    · exact .inr ⟨hout, .inr (hnot p (hown hm)), hclear p⟩
  · refine Recorded.observe ?_
    refine h.recorded.part ⟨rfl, rfl, ?_, ?_⟩ (fun _ => []) rfl ?_ ?_ fun _ => rfl
    · exact fun q => congrArg Channel.flushed (haddressed.queue q)
    · exact fun q => congrArg Channel.finished (haddressed.queue q)
    · intro q
      rw [haddressed.queues, append_nil]
    · intro q
      rw [append_nil]
  · intro p' frames' hrequest
    cases hrequest
    exact h.mem_known

theorem At.first (h : At s .idle) {q : FairQueues.System Pipe}
    (hread : Read s.rep.router.queues q p m)
    (hlink : Link { s.rep.router with queues := q } (Stage.addressed p m).mid s.known) (id : Msg)
    (sent : Bool) :
    Fetching s { s.rep.router with
      queues := q, prefetchedMsg := m, prefetchedId := id, prefetched := true, currentIn := some p
      routingIdSent := sent } p m := by
  cases h.shows with
  | idle free prefetched moreIn =>
    refine ⟨?_, rfl, rfl, rfl, hread.part, free.moreOut, free.currentOut, rfl, ?_⟩
    · exact hlink.of_frame hlink.plain.anew (.of_eq rfl) rfl
    · refine h.recorded.part ⟨rfl, rfl, fun _ => rfl, fun _ => rfl⟩ (Stage.addressed p m).pending
        rfl hread.got ?_ fun _ => rfl
      intro q
      rfl

theorem At.turn_idle (h : At s .idle) (hcall : s.rep.call = some .recv) (ht : s.turn = some t) :
    ∃ stage, At t stage := by
  cases h.shows with
  | idle free prefetched moreIn =>
    obtain ⟨q, part, hrecv, hcases⟩ := h.link.recv_cases
    have hnot : ¬ s.rep.router.prefetched = true := Bool.eq_false_iff.mp prefetched
    have hbetween : ¬ s.rep.router.moreIn = true := Bool.eq_false_iff.mp moreIn
    rcases hcases with ⟨-, hsilent, rfl | ⟨p, m, rfl, hrouting⟩⟩ | ⟨p, m, rfl, -, hread, hlink⟩
    · cases (turn_of_empty hcall (fetch_empty hnot hrecv)).symm.trans ht
      exact ⟨.idle, h.silent hsilent none⟩
    · cases (turn_of_dropped hcall (fetch_label hnot hrecv hrouting)).symm.trans ht
      exact ⟨.idle, h.silent hsilent s.rep.call⟩
    have hfetching := h.first hread hlink s.rep.router.prefetchedId true
    have htarget : s.rep.router.target (s.rep.router.routingId p) = some p :=
      (h.link.table.directory _ p).mpr ⟨hread.mem, rfl⟩
    have hpart : ¬ m.flags.routingId = true := Bool.eq_false_iff.mp hread.part
    obtain ⟨rep, hlabel, hat⟩ := hfetching.address free hcall rfl
      (show (idMsg (s.rep.router.routingId p)).flags.more = true from rfl)
      (h.link.table.named p hread.mem) (fun _ => htarget)
    have hfetch := fetch_first hnot hbetween hrecv hpart
    cases (turn_of_label hcall hfetch free.requestBegins hlabel).symm.trans ht
    exact ⟨_, hat⟩

/-- A turn of `xrecv` after `xhas_in` has read the first part of a request. -/
theorem At.turn_held (h : At s (.held p m)) (hcall : s.rep.call = some .recv)
    (ht : s.turn = some t) : ∃ stage, At t stage := by
  cases h.shows with
  | held free first routingIdSent moreIn more id own =>
    have hfetch : s.rep.router.fetch = some ({ s.rep.router with
        routingIdSent := true, moreIn := true }, .part s.rep.router.prefetchedId) := by
      unfold Router.fetch
      rw [if_pos first.prefetched, if_pos (by rw [routingIdSent]; rfl)]
      refine (returned_eq (r := { s.rep.router with routingIdSent := true }) ?_ _).trans ?_
      · exact h.link.plain.anew
      · rw [after, if_pos more]
    have hfetching :
        Fetching s { s.rep.router with routingIdSent := true, moreIn := true } p m := by
      refine ⟨?_, first.prefetched, first.prefetchedMsg, first.currentIn, first.part, free.moreOut,
        free.currentOut, rfl, ?_⟩
      · exact h.link.of_frame h.link.plain.anew (.of_eq rfl) rfl
      refine h.recorded.part ⟨rfl, rfl, fun _ => rfl, fun _ => rfl⟩ (fun _ => []) rfl ?_ ?_
        fun _ => rfl
      · intro q
        rw [append_nil]
      · intro q
        rw [append_nil]
        rfl
    have htarget (hm : m.flags.more = true) :
        s.rep.router.target s.rep.router.prefetchedId.data = some p := by
      have hin : p ∈ s.rep.router.queues.attached := h.link.stream.mem (by simp [Stage.mid, hm])
      exact (h.link.table.directory _ p).mpr ⟨hin, (own hm).symm⟩
    obtain ⟨rep, hlabel, hat⟩ := hfetching.address free hcall rfl more id htarget
    cases (turn_of_label hcall hfetch free.requestBegins hlabel).symm.trans ht
    exact ⟨_, hat⟩

/-- The next part of a request has come from the router. -/
structure Reading (s : System Pipe) (stage : Stage Pipe) (r : Router Pipe) (p : Pipe)
    (frames : List Msg) (m : Msg) : Prop where
  before : At s stage
  request : s.request = some (p, frames)
  sendingReply : s.rep.sendingReply = false
  reply : s.reply = []
  replying : ∀ q, stage.replying q = []
  more : ∀ m ∈ frames, m.flags.more = true
  link : Link r (if m.flags.more then some p else none) s.known
  prefetched : r.prefetched = false
  moreIn : r.moreIn = m.flags.more
  moreOut : r.moreOut = true
  out : r.currentOut = s.rep.router.currentOut
  sinks : r.sinks = s.rep.router.sinks
  got : ∃ new : Pipe → List Msg,
    (∀ q, content (r.queues.got q) = content (s.rep.router.queues.got q) ++ new q) ∧
      ∀ q, stage.pending q ++ new q = if q = p then frames ++ [m] else []

/-- The system while a request goes on. -/
def System.grown (s : System Pipe) (rep : Rep Pipe) (p : Pipe) (frames : List Msg) : System Pipe :=
  { s with rep := rep, request := some (p, frames) }

section Parts
variable (h : Reading s stage r p frames m)
include h

theorem Reading.more_append (hm : m.flags.more = true) :
    ∀ m' ∈ frames ++ [m], m'.flags.more = true :=
  forall_mem_append.mpr ⟨h.more, forall_mem_singleton.mpr hm⟩

theorem Reading.part {stage' : Stage Pipe} (hquiet : Quiet s t) (htaken : t.taken = s.taken)
    (hqueues : t.rep.router.queues = r.queues)
    (hpending : ∀ q, stage'.pending q = if q = p then frames ++ [m] else [])
    (hreplying : ∀ q, stage'.replying q = []) : Recorded t stage' := by
  obtain ⟨new, hgot, hnew⟩ := h.got
  refine h.before.recorded.part hquiet new htaken ?_ ?_ ?_
  · rw [hqueues]
    exact hgot
  · intro q
    rw [hpending, hnew]
  · intro q
    rw [hreplying, h.replying]

theorem Reading.took {stage' : Stage Pipe} (hquiet : Quiet s t)
    (htaken : t.taken = update s.taken p (s.taken p ++ [frames ++ [m]]))
    (hqueues : t.rep.router.queues = r.queues) (hm : m.flags.more = false)
    (hdone : ∀ q, stage'.pending q = [])
    (hreplying : ∀ q, (stage'.replying q).Sublist (if q = p then [frames ++ [m]] else [])) :
    Recorded t stage' := by
  obtain ⟨new, hgot, hnew⟩ := h.got
  refine h.before.recorded.took hquiet new htaken ?_ hnew hdone (complete_append h.more hm)
    h.replying hreplying
  rw [hqueues]
  exact hgot

theorem Reading.record (rep : Rep Pipe) (hm : m.flags.more = true) :
    s.record rep m = (s.grown rep p (frames ++ [m])).observe := by
  unfold System.record
  rw [h.request]
  exact if_pos hm

theorem Reading.known (rep : Rep Pipe) {p' : Pipe} {frames frames' : List Msg}
    (hrequest : (s.grown rep p frames).observe.request = some (p', frames')) :
    p' ∈ (s.grown rep p frames).observe.known := by
  cases hrequest
  exact h.before.peer _ _ h.request

theorem Reading.label (hout : Out s p frames) (hcall : s.rep.call = some .recv)
    (hlabels : ∀ m ∈ frames, m.data ≠ []) (hm : m.flags.more = true) :
    ∃ rep, { s.rep with router := r }.label m = some rep ∧
      ∃ stage', At (s.record rep m) stage' := by
  obtain ⟨r', hsend, hpushed⟩ := xsend_next (m := m) h.link.plain h.moreOut
  have hlabel : { s.rep with router := r }.label m =
      some { s.rep with router := r', requestBegins := !m.data.isEmpty } := by
    unfold Rep.label
    rw [if_pos hm]
    simp only [hsend]
  refine ⟨_, hlabel, ?_⟩
  rw [h.record _ hm]
  have hlink : Link r' (some p) s.known := by
    have hlink := h.link
    rw [if_pos hm] at hlink
    exact hlink.of_frame (hpushed.same ▸ hlink.plain.anew) hpushed.frame hpushed.queues
  let u := s.grown { s.rep with router := r', requestBegins := !m.data.isEmpty } p (frames ++ [m])
  have hbusy {begins : Bool} (hbegins : (!m.data.isEmpty) = begins) :
      Busy u p (frames ++ [m]) begins false true := by
    refine ⟨rfl, hbegins, h.sendingReply, ?_, ?_, ?_⟩
    · exact (congrArg Talk.prefetched hpushed.same).trans h.prefetched
    · exact (congrArg Talk.moreIn hpushed.same).trans (h.moreIn.trans hm)
    · exact (congrArg Talk.moreOut hpushed.same).trans hm
  have hquiet : Quiet s u := by
    refine ⟨rfl, rfl, fun q => ?_, fun q => ?_⟩
    · rw [← h.sinks]
      exact (hpushed.quiet hm q).1
    · rw [← h.sinks]
      exact (hpushed.quiet hm q).2
  have hout' : Out u.observe p (frames ++ [m]) := hout.push hpushed h.sinks h.out hm rfl rfl
  by_cases hdata : m.data = []
  · refine ⟨.body p (frames ++ [m]), ?_, ?_, ?_, fun _ _ => h.known _⟩
    · exact hlink
    · refine .body (hbusy (by simp [hdata])).observe ?_ ?_ (h.more_append hm) ?_
      · exact h.reply
      · rw [envelope_of_labels hlabels hdata]
        exact hout'
      · exact ⟨m, by simp, hdata⟩
    · exact (h.part hquiet rfl hpushed.queues (fun _ => rfl) fun _ => rfl).observe
  · refine ⟨.envelope p (frames ++ [m]), ?_, ?_, ?_, fun _ _ => h.known _⟩
    · exact hlink
    · refine .envelope (hbusy (by simp [hdata])).observe ?_ ?_ hout' (h.more_append hm) ?_
      · exact hcall
      · exact h.reply
      · exact forall_mem_append.mpr ⟨hlabels, forall_mem_singleton.mpr hdata⟩
    · exact (h.part hquiet rfl hpushed.queues (fun _ => rfl) fun _ => rfl).observe

theorem Reading.drop (hbegins : s.rep.requestBegins = true)
    (hhas : s.rep.router.currentOut ≠ none)
    (hleft : ∀ q, (s.rep.router.sinks q).alive = true → s.rep.router.currentOut ≠ some q →
      (s.rep.router.sinks q).queue.unfinished = []) (hm : m.flags.more = false) :
    { s.rep with router := r }.label m = some { s.rep with router := r.rollback } ∧
      At (s.record { s.rep with router := r.rollback } m) .idle := by
  have hlast : ¬ m.flags.more = true := Bool.eq_false_iff.mp hm
  refine ⟨if_neg hlast, ?_⟩
  obtain ⟨p', hp'⟩ := ne_none_iff_exists'.mp hhas
  have hrollback : r.rollback = { r.setSink p' (r.sinks p').rollback with
      currentOut := none, moreOut := false } := by
    unfold Router.rollback
    rw [h.out.trans hp']
  have hrecord : s.record { s.rep with router := r.rollback } m =
      { s with
        rep := { s.rep with router := r.rollback }
        request := none
        taken := update s.taken p (s.taken p ++ [frames ++ [m]]) } := by
    unfold System.record
    rw [h.request]
    dsimp only
    rw [if_neg hlast, if_pos hbegins]
    rfl
  have hlink : Link r none s.known := by
    have hlink := h.link
    rw [if_neg hlast] at hlink
    exact hlink
  have hsinks (q : Pipe) :
      (r.rollback.sinks q).queue.flushed = (s.rep.router.sinks q).queue.flushed ∧
      (r.rollback.sinks q).queue.finished = (s.rep.router.sinks q).queue.finished := by
    rw [hrollback, ← h.sinks]
    rcases eq_or_ne q p' with rfl | hq
    · simp [Router.setSink, Sink.rollback]
    · simp [Router.setSink, hq]
  rw [hrecord]
  refine ⟨?_, .idle ⟨rfl, h.reply, hbegins, h.sendingReply, ?_, ?_, ?_⟩ ?_ ?_, ?_, by simp⟩
  · refine hlink.of_frame ?_ (Routers.frame_rollback r) ?_
    · rw [hrollback]
      exact hlink.plain.anew
    · rw [hrollback]
      rfl
  · rw [hrollback]
  · rw [hrollback]
  · intro q halive
    rw [hrollback] at halive ⊢
    rcases eq_or_ne q p' with rfl | hq
    · simp [Router.setSink, Sink.rollback]
    · simp only [Router.setSink, update_of_ne hq, h.sinks] at halive ⊢
      refine hleft q halive ?_
      rw [hp']
      exact fun heq => hq (some.inj heq).symm
  · rw [hrollback]
    exact h.prefetched
  · rw [hrollback]
    exact h.moreIn.trans hm
  · refine h.took ⟨rfl, rfl, fun q => (hsinks q).1, fun q => (hsinks q).2⟩ rfl ?_ hm
      (fun _ => rfl) ?_
    · rw [hrollback]
      rfl
    · exact fun _ => nil_sublist _

theorem Reading.body (hbegins : s.rep.requestBegins = false) (hout : Out s p (envelope frames))
    (hbottom : ∃ m ∈ frames, m.data = []) :
    ∃ stage', At (s.record ({ s.rep with router := r }.body m) m) stage' := by
  have hout' {t : System Pipe} (hrouter : t.rep.router = r) {frames' : List Msg}
      (hrequest : t.request = some (p, frames')) (hwritable : t.writable = s.writable) :
      Out t.observe p (envelope (frames ++ [m])) := by
    rw [envelope_append_of_bottom hbottom]
    refine out_observe hrequest ?_ ?_
    · rw [hrouter, h.sinks]
      exact hout.others
    · rw [hrouter, h.sinks, h.out, hwritable]
      exact hout.own.imp_right fun ⟨hnone, hfalse, hclear⟩ => ⟨hnone, .inl hfalse, hclear⟩
  have hquiet {t : System Pipe} (hrouter : t.rep.router = r) (hknown : t.known = s.known)
      (hexchanges : t.exchanges = s.exchanges) : Quiet s t := by
    refine ⟨hknown, hexchanges, fun q => ?_, fun q => ?_⟩
    · rw [hrouter, h.sinks]
    · rw [hrouter, h.sinks]
  cases hm : m.flags.more with
  | true =>
    refine ⟨.body p (frames ++ [m]), ?_⟩
    rw [h.record _ hm]
    refine ⟨?_, .body (Busy.observe ⟨rfl, ?_, ?_, h.prefetched, h.moreIn.trans hm, h.moreOut⟩) ?_
      (hout' rfl rfl rfl) (h.more_append hm) ?_, ?_, fun _ _ => h.known _⟩
    · have hlink := h.link
      rw [if_pos hm] at hlink
      exact hlink
    · change (!m.flags.more) = false
      rw [hm]
      rfl
    · change (!m.flags.more) = false
      rw [hm]
      rfl
    · exact h.reply
    · obtain ⟨m', hm', hdata⟩ := hbottom
      exact ⟨m', mem_append_left _ hm', hdata⟩
    · exact Recorded.observe (h.part (hquiet rfl rfl rfl) rfl rfl (fun _ => rfl) fun _ => rfl)
  | false =>
    have hlast : ¬ m.flags.more = true := Bool.eq_false_iff.mp hm
    let rep := { s.rep with router := r }.body m
    have hrecord : s.record rep m = (
        { s with taken := update s.taken p (s.taken p ++ [frames ++ [m]]) }.grown
          rep p (frames ++ [m])).observe := by
      unfold System.record
      rw [h.request]
      dsimp only
      rw [if_neg hlast, if_neg (by rw [hbegins]; exact nofun)]
      rfl
    refine ⟨.reply p (frames ++ [m]), ?_⟩
    rw [hrecord]
    refine ⟨?_, .reply (Busy.observe ⟨rfl, ?_, ?_, h.prefetched, h.moreIn.trans hm, h.moreOut⟩)
      ?_ ?_ (complete_append h.more hm) ?_, ?_, ?_⟩
    · have hlink := h.link
      rw [if_neg hlast] at hlink
      exact hlink
    · change (!m.flags.more) = true
      rw [hm]
      rfl
    · change (!m.flags.more) = true
      rw [hm]
      rfl
    · rfl
    · change Out _ p (_ ++ s.reply)
      rw [h.reply, append_nil]
      exact hout' rfl rfl rfl
    · obtain ⟨m', hm', hdata⟩ := hbottom
      refine ⟨m', ?_, hdata⟩
      rw [dropLast_concat]
      exact hm'
    · refine Recorded.observe (h.took (hquiet rfl rfl rfl) rfl rfl hm (fun _ => rfl) ?_)
      exact fun q => List.Sublist.refl _
    · intro p' frames' hrequest
      cases hrequest
      exact h.before.peer _ _ h.request

end Parts

theorem At.reading_first (h : At s (.addressed p m)) :
    ∃ r, s.rep.router.fetch = some (r, .part m) ∧ Reading s (.addressed p m) r p [] m := by
  cases h.shows with
  | addressed first routingIdSent call request reply requestBegins sendingReply moreOut clear out =>
    obtain rfl := first.prefetchedMsg
    have hlink : Link { s.rep.router with prefetched := false } _ s.known :=
      h.link.of_frame h.link.plain.anew (.of_eq rfl) rfl
    have hfetch : s.rep.router.fetch = some (after { s.rep.router with prefetched := false }
        s.rep.router.prefetchedMsg, .part s.rep.router.prefetchedMsg) := by
      unfold Router.fetch
      rw [if_pos first.prefetched, if_neg (by rw [routingIdSent]; exact nofun)]
      exact returned_eq hlink.plain _
    refine ⟨_, hfetch, h, request, sendingReply, reply, fun _ => rfl, nofun, hlink.after _ _,
      after_prefetched _ _, after_moreIn _ _, (after_moreOut _ _).trans moreOut,
      after_currentOut _ _, after_sinks _ _, fun _ => [], ?_, ?_⟩
    · intro q
      rw [append_nil, after_queues]
    · intro q
      rw [append_nil]
      rfl

theorem At.reading_next {begins : Bool} (h : At s stage) (hbusy : Busy s p frames begins false true)
    (hmid : stage.mid = some p) (hreply : s.reply = [])
    (hmore : ∀ m ∈ frames, m.flags.more = true)
    (hpending : ∀ q, stage.pending q = if q = p then frames else [])
    (hreplying : ∀ q, stage.replying q = []) :
    ∃ r m, s.rep.router.fetch = some (r, .part m) ∧ Reading s stage r p frames m := by
  obtain ⟨q, part, hrecv, hcases⟩ := h.link.recv_cases
  have hnot : ¬ s.rep.router.prefetched = true := Bool.eq_false_iff.mp hbusy.prefetched
  rcases hcases with ⟨hnone, -⟩ | ⟨p', m, rfl, hmid', hread, hlink⟩
  · cases hmid.symm.trans hnone
  obtain rfl : p = p' := by
    rcases hmid' with hnone | hsome
    · cases hmid.symm.trans hnone
    · exact some.inj (hmid.symm.trans hsome)
  have hpart : ¬ m.flags.routingId = true := Bool.eq_false_iff.mp hread.part
  have hfetch := fetch_next hnot h.link.plain hbusy.moreIn hrecv hpart
  refine ⟨_, m, hfetch, h, hbusy.request, hbusy.sendingReply, hreply, hreplying, hmore,
    hlink.after _ _, (after_prefetched _ _).trans hbusy.prefetched, after_moreIn _ _,
    (after_moreOut _ _).trans hbusy.moreOut, after_currentOut _ _, after_sinks _ _,
    fun q => if q = p then [m] else [], ?_, ?_⟩
  · rw [after_queues]
    exact hread.got
  · intro q'
    rw [hpending]
    by_cases hq : q' = p <;> simp [hq]

theorem Reading.turn (h : Reading s stage r p frames m) (hcall : s.rep.call = some .recv)
    (hfetch : s.rep.router.fetch = some (r, .part m)) (hbegins : s.rep.requestBegins = true)
    (hnot : ¬ Stuck s) (hout : m.flags.more = true → Out s p frames)
    (hlabels : ∀ m ∈ frames, m.data ≠ [])
    (hleft : ∀ q, (s.rep.router.sinks q).alive = true → s.rep.router.currentOut ≠ some q →
      (s.rep.router.sinks q).queue.unfinished = []) (ht : s.turn = some t) :
    ∃ stage', At t stage' := by
  cases hm : m.flags.more with
  | true =>
    obtain ⟨rep, hlabel, hat⟩ := h.label (hout hm) hcall hlabels hm
    cases (turn_of_label hcall hfetch hbegins hlabel).symm.trans ht
    exact hat
  | false =>
    have hhas : s.rep.router.currentOut ≠ none := by
      intro hnone
      refine hnot ?_
      unfold Stuck
      rw [hfetch]
      exact ⟨hm, hbegins, hnone⟩
    obtain ⟨hlabel, hat⟩ := h.drop hbegins hhas hleft hm
    cases (turn_of_label hcall hfetch hbegins hlabel).symm.trans ht
    exact ⟨_, hat⟩

theorem At.turn_recv (h : At s stage) (hcall : s.rep.call = some .recv) (hnot : ¬ Stuck s)
    (ht : s.turn = some t) : ∃ stage', At t stage' := by
  cases stage with
  | idle => exact h.turn_idle hcall ht
  | held p m => exact h.turn_held hcall ht
  | addressed p m =>
    obtain ⟨r, hfetch, hreading⟩ := h.reading_first
    cases h.shows with
    | addressed _ _ _ _ _ requestBegins _ _ clear out =>
      exact hreading.turn hcall hfetch requestBegins hnot out nofun
        (fun q halive _ => clear q halive) ht
  | envelope p frames =>
    cases h.shows with
    | envelope busy call reply out more labels =>
      obtain ⟨r, m, hfetch, hreading⟩ :=
        h.reading_next busy rfl reply more (fun _ => rfl) fun _ => rfl
      refine hreading.turn hcall hfetch busy.requestBegins hnot (fun _ => out) labels ?_ ht
      intro q halive hother
      rcases eq_or_ne q p with rfl | hq
      · rcases out.own with ⟨hp, -⟩ | ⟨-, -, hclear⟩
        · exact absurd hp hother
        · exact hclear halive
      · exact out.others q hq halive
  | body p frames =>
    cases h.shows with
    | body busy reply out more bottom =>
      obtain ⟨r, m, hfetch, hreading⟩ :=
        h.reading_next busy rfl reply more (fun _ => rfl) fun _ => rfl
      have hbegins : ¬ s.rep.requestBegins = true := Bool.eq_false_iff.mp busy.requestBegins
      cases (turn_of_body hcall hfetch hbegins).symm.trans ht
      exact hreading.body busy.requestBegins out bottom
  | reply p frames =>
    cases h.shows with
    | reply _ call => cases call.symm.trans hcall

theorem At.setCall (h : At s stage) (hbetween : s.rep.call ≠ some .recv)
    (hsending : s.rep.sendingReply = false) (call : Option Call) :
    At { s with rep := { s.rep with call := call } } stage := by
  refine ⟨h.link, ?_, ?_, h.peer⟩
  · cases h.shows with
    | idle free prefetched moreIn =>
      exact .idle { free with } prefetched moreIn
    | held free first routingIdSent moreIn more id own =>
      exact .held { free with } { first with } routingIdSent moreIn more id own
    | addressed _ _ hcall | envelope _ hcall => exact absurd hcall hbetween
    | body busy reply out more bottom =>
      exact .body { busy with } reply { out with } more bottom
    | reply busy => cases hsending.symm.trans busy.sendingReply
  · exact { h.recorded with }

theorem At.turn_waiting (h : At s stage) (hcall : s.rep.call = some .hasIn)
    (hsending : s.rep.sendingReply = false)
    (hwaits : (s.rep.router.moreIn || s.rep.router.prefetched) = true) (ht : s.turn = some t) :
    At t stage := by
  have hlook : s.rep.router.look = some (s.rep.router, some true) := if_pos hwaits
  have hturn : s.turn = some { s with rep := { s.rep with call := none } } := by
    simp only [System.turn, hcall, Rep.hasInTurn, hlook, map_some]
  cases hturn.symm.trans ht
  exact h.setCall (by rw [hcall]; exact nofun) hsending none

theorem At.turn_look (h : At s .idle) (hcall : s.rep.call = some .hasIn) (ht : s.turn = some t) :
    ∃ stage', At t stage' := by
  cases h.shows with
  | idle free prefetched moreIn =>
    have hnot : ¬ (s.rep.router.moreIn || s.rep.router.prefetched) = true := by
      rw [moreIn, prefetched]
      exact nofun
    obtain ⟨q, part, hrecv, hcases⟩ := h.link.recv_cases
    unfold System.turn at ht
    rw [hcall] at ht
    unfold Rep.hasInTurn Router.look at ht
    rw [if_neg hnot, hrecv] at ht
    rcases hcases with ⟨-, hsilent, rfl | ⟨p, m, rfl, hrouting⟩⟩ | ⟨p, m, rfl, -, hread, hlink⟩
    · cases ht
      exact ⟨.idle, h.silent hsilent none⟩
    · dsimp only at ht
      rw [if_pos hrouting] at ht
      cases ht
      exact ⟨.idle, h.silent hsilent s.rep.call⟩
    · have hpart : ¬ m.flags.routingId = true := Bool.eq_false_iff.mp hread.part
      have hfetching := h.first hread hlink (idMsg (s.rep.router.routingId p)) false
      dsimp only at ht
      rw [if_neg hpart] at ht
      cases ht
      refine ⟨.held p m, hfetching.link, .held { free with } ⟨rfl, rfl, rfl, hread.part⟩
        rfl moreIn rfl (h.link.table.named p hread.mem) fun _ => rfl, ?_, h.peer⟩
      have hrecorded := hfetching.recorded
      exact { hrecorded with }

theorem At.turn_hasIn (h : At s stage) (hcall : s.rep.call = some .hasIn) (ht : s.turn = some t) :
    ∃ stage', At t stage' := by
  cases stage with
  | idle => exact h.turn_look hcall ht
  | held p m =>
    cases h.shows with
    | held free first =>
      exact ⟨_, h.turn_waiting hcall free.sendingReply (by simp [first.prefetched]) ht⟩
  | addressed p m =>
    cases h.shows with
    | addressed _ _ call => cases call.symm.trans hcall
  | envelope p frames =>
    cases h.shows with
    | envelope _ call => cases call.symm.trans hcall
  | body p frames =>
    cases h.shows with
    | body busy => exact ⟨_, h.turn_waiting hcall busy.sendingReply (by simp [busy.moreIn]) ht⟩
  | reply p frames =>
    cases h.shows with
    | reply _ call => cases call.symm.trans hcall

end Turns

section Replies
variable {s t : System Pipe} {p : Pipe} {frames : List Msg} {r : Router Pipe} {m : Msg}

theorem At.send_more (h : At s (.reply p frames)) (hpushed : Pushed s.rep.router m r)
    (hm : m.flags.more = true) :
    At { s with
      rep := { s.rep with router := r, sendingReply := m.flags.more }
      reply := s.reply ++ [m] }.observe (.reply p frames) := by
  cases h.shows with
  | reply busy call out complete wellFormed =>
    refine ⟨?_, .reply (Busy.observe ⟨busy.request, busy.requestBegins, hm, ?_, ?_, ?_⟩) ?_ ?_
      complete wellFormed, ?_, ?_⟩
    · rw [observe_rep, observe_known]
      exact h.link.of_frame (hpushed.same ▸ h.link.plain.anew) hpushed.frame hpushed.queues
    · exact (congrArg Talk.prefetched hpushed.same).trans busy.prefetched
    · exact (congrArg Talk.moreIn hpushed.same).trans busy.moreIn
    · exact (congrArg Talk.moreOut hpushed.same).trans hm
    · rw [observe_rep]
      exact call
    · rw [observe_reply]
      rw [← append_assoc]
      exact out.push hpushed rfl rfl hm busy.request rfl
    · refine Recorded.observe ?_
      refine h.recorded.part ⟨rfl, rfl, fun q => (hpushed.quiet hm q).1,
        fun q => (hpushed.quiet hm q).2⟩ (fun _ => []) rfl ?_ ?_ fun _ => rfl
      · intro q
        rw [hpushed.queues, append_nil]
      · intro q
        rfl
    · intro p' frames' hrequest
      rw [observe_request] at hrequest
      rw [observe_known]
      exact h.peer p' frames' hrequest

/-- What the last part of a reply leaves in the pipes: the message was flushed, or the pipe could
not be written to all the time. -/
structure Replied (s : System Pipe) (r : Router Pipe) (p : Pipe) (message : List Msg) : Prop where
  out : r.currentOut = none
  clear : ∀ q, (r.sinks q).alive = true → (r.sinks q).queue.unfinished = []
  finished : ∀ q, (s.rep.router.sinks q).queue.finished = [] → (r.sinks q).queue.finished = []
  others : ∀ q, q ≠ p → (r.sinks q).queue.flushed = (s.rep.router.sinks q).queue.flushed
  own : (r.sinks p).queue.flushed = (s.rep.router.sinks p).queue.flushed ++ message ∨
    (r.sinks p).queue.flushed = (s.rep.router.sinks p).queue.flushed ∧ s.writable = false

theorem Out.last {pushed : List Msg} (h : Out s p pushed) (hpushed : Pushed s.rep.router m r)
    (hfinished : (s.rep.router.sinks p).queue.finished = []) (hm : m.flags.more = false) :
    Replied s r p (pushed ++ [m]) := by
  have hother (q : Pipe) (hq : q ≠ p) : r.sinks q = s.rep.router.sinks q := by
    refine hpushed.others q fun hout => ?_
    rcases h.own with ⟨hp, -⟩ | ⟨hnone, -⟩
    · exact hq (some.inj (hout.symm.trans hp))
    · cases hnone.symm.trans hout
  -- It is enough to look at the pipe of the peer.
  suffices hown : r.currentOut = none ∧ ((r.sinks p).alive = true →
      (r.sinks p).queue.unfinished = []) ∧ (r.sinks p).queue.finished = [] ∧
      ((r.sinks p).queue.flushed = (s.rep.router.sinks p).queue.flushed ++ (pushed ++ [m]) ∨
        (r.sinks p).queue.flushed = (s.rep.router.sinks p).queue.flushed ∧ s.writable = false) by
    obtain ⟨hout, hclear, hdone, hflushed⟩ := hown
    refine ⟨hout, ?_, ?_, fun q hq => by rw [hother q hq], hflushed⟩
    · intro q halive
      rcases eq_or_ne q p with rfl | hq
      · exact hclear halive
      · rw [hother q hq] at halive ⊢
        exact h.others q hq halive
    · intro q hq'
      rcases eq_or_ne q p with rfl | hq
      · exact hdone
      · rw [hother q hq]
        exact hq'
  rcases h.own with ⟨hp, hown⟩ | ⟨hnone, hfalse, hclear⟩
  · cases hpushed.own p hp with
    | more _ hmore => cases hm.symm.trans hmore
    | last hwritable _ hout hqueue =>
      rw [hqueue]
      refine ⟨hout, fun _ => rfl, rfl, .inl ?_⟩
      simp [Channel.write, Channel.flush, hfinished, hown hwritable.2.1]
    | refused hnot _ hout hqueue =>
      rw [hqueue]
      refine ⟨hout, fun _ => rfl, hfinished, .inr ⟨rfl, ?_⟩⟩
      exact Bool.eq_false_iff.mpr fun htrue => hnot (h.writable htrue)
  · have hsame : r.sinks p = s.rep.router.sinks p := hpushed.others p (by rw [hnone]; exact nofun)
    rw [hsame]
    exact ⟨hpushed.none hnone, hclear, hfinished, .inr ⟨rfl, hfalse⟩⟩

theorem At.send_last (h : At s (.reply p frames)) (hpushed : Pushed s.rep.router m r)
    (hm : m.flags.more = false) :
    At { s with
      rep := { s.rep with router := r, sendingReply := m.flags.more }
      request := none
      reply := []
      exchanges := s.exchanges ++ [⟨p, frames, s.reply ++ [m], s.writable⟩] } .idle := by
  cases h.shows with
  | reply busy call out complete wellFormed =>
    have hreplied := out.last hpushed (h.recorded.finished p) hm
    let e : Exchange Pipe := ⟨p, frames, s.reply ++ [m], s.writable⟩
    have hexchanges (q : Pipe) : (s.exchanges ++ [e]).filter (fun e => e.peer = q) =
        s.exchangesOf q ++ if q = p then [e] else [] := by
      rcases eq_or_ne q p with rfl | hq
      · simp [System.exchangesOf, e]
      · simp [System.exchangesOf, e, hq, Ne.symm hq]
    refine ⟨?_, .idle ⟨rfl, rfl, busy.requestBegins, hm, ?_, hreplied.out, hreplied.clear⟩ ?_ ?_,
      ⟨?_, h.recorded.complete, ?_, ?_, ?_, ?_, ?_⟩, by simp⟩
    · exact h.link.of_frame (hpushed.same ▸ h.link.plain.anew) hpushed.frame hpushed.queues
    · exact (congrArg Talk.moreOut hpushed.same).trans hm
    · exact (congrArg Talk.prefetched hpushed.same).trans busy.prefetched
    · exact (congrArg Talk.moreIn hpushed.same).trans busy.moreIn
    · intro q
      rw [hpushed.queues]
      exact h.recorded.pending q
    · intro q
      have hold := h.recorded.requests q
      unfold System.exchangesOf
      rw [hexchanges, map_append]
      by_cases hq : q = p <;> simpa [Stage.replying, hq] using hold
    · exact forall_mem_append.mpr ⟨h.recorded.wellFormed, forall_mem_singleton.mpr wellFormed⟩
    · exact forall_mem_append.mpr
        ⟨h.recorded.peers, forall_mem_singleton.mpr (h.peer p frames busy.request)⟩
    · exact fun q => hreplied.finished q (h.recorded.finished q)
    · intro q
      obtain ⟨delivered, hflushed, hsub, hwritable⟩ := h.recorded.flushed q
      unfold System.exchangesOf
      rw [hexchanges]
      rcases eq_or_ne q p with rfl | hq
      · rw [if_pos rfl, filter_append]
        rcases hreplied.own with hnew | ⟨hsame, hfalse⟩
        · refine ⟨delivered ++ [_], ?_, hsub.append_right _, ?_⟩
          · rw [hnew, hflushed, flatMap_append, flatMap_singleton, Exchange.message, append_assoc]
          · exact hwritable.append (filter_sublist ..)
        · refine ⟨delivered, hsame.trans hflushed, hsub.trans (sublist_append_left ..), ?_⟩
          simpa [e, hfalse] using hwritable
      · rw [if_neg hq, append_nil]
        exact ⟨delivered, (hreplied.others q hq).trans hflushed, hsub, hwritable⟩

theorem At.send {stage : Stage Pipe} (h : At s stage) (ht : s.send m = some t) :
    ∃ stage', At t stage' := by
  cases hsending : s.rep.sendingReply with
  | false =>
    have hsend : s.send m = some s := by
      simp [System.send, Rep.xsend, hsending]
    cases hsend.symm.trans ht
    exact ⟨_, h⟩
  | true =>
    cases h.shows with
    | idle free | held free => cases hsending.symm.trans free.sendingReply
    | addressed _ _ _ _ _ _ sendingReply => cases hsending.symm.trans sendingReply
    | envelope busy | body busy => cases hsending.symm.trans busy.sendingReply
    | @reply p frames busy call out complete wellFormed =>
      obtain ⟨r, hsend, hpushed⟩ := xsend_next (m := m) h.link.plain busy.moreOut
      have hrep : s.rep.xsend m =
          some { s.rep with router := r, sendingReply := m.flags.more } := by
        unfold Rep.xsend
        rw [if_neg (by rw [hsending]; exact nofun), hsend]
      unfold System.send at ht
      rw [hrep] at ht
      dsimp only at ht
      rw [if_pos hsending] at ht
      cases hm : m.flags.more with
      | true =>
        rw [if_pos hm] at ht
        cases ht
        exact ⟨_, h.send_more hpushed hm⟩
      | false =>
        rw [if_neg (by rw [hm]; exact nofun), busy.request] at ht
        cases ht
        exact ⟨_, h.send_last hpushed hm⟩

end Replies

section Runs
variable {s t : System Pipe} {stage : Stage Pipe}

theorem At.initial (h : Initial s) : At s .idle := by
  obtain ⟨n, rfl⟩ := h
  refine ⟨⟨⟨rfl, rfl, rfl, rfl, rfl, rfl, rfl⟩, Routers.table_new rfl rfl rfl,
    ⟨FairQueues.inv_new, by simp, by simp, by simp, by rintro _ ⟨⟩⟩,
    by simp, by rintro _ (h | h) <;> exact h, fun _ _ => rfl⟩,
    .idle ⟨rfl, rfl, rfl, rfl, rfl, rfl, fun _ _ => rfl⟩ rfl rfl, ?_, by simp⟩
  refine ⟨fun _ => rfl, by simp, fun _ => List.Sublist.refl _, by simp, by simp,
    fun _ => rfl, ?_⟩
  intro p
  exact ⟨[], rfl, List.Sublist.refl _, List.Sublist.refl _⟩

/-- Something happens to the pipes between the calls of the user. -/
theorem At.withRouter (h : At s stage) {known : List Pipe} {r : Option (Router Pipe)}
    {new : Pipe → Prop}
    (hlink : ∀ r', r = some r' → Link r' stage.mid known ∧ Env s.rep.router r' new)
    (hnew : ∀ q, new q → q ∉ s.known) (hknown : ∀ q ∈ s.known, q ∈ known)
    (ht : s.between ({ s with known := known }.withRouter r) = some t) : At t stage := by
  obtain ⟨hcall, ht⟩ := ite_none_left_eq_some.mp ht
  obtain ⟨r', hr', rfl⟩ := map_eq_some_iff.mp ht
  obtain ⟨hlink, henv⟩ := hlink r' hr'
  exact h.env (not_isSome_iff_eq_none.mp hcall) hlink henv hnew hknown

theorem At.step {input : Input Pipe} (h : At s stage) (hguard : Guard s input)
    (ht : Reps.step s input = some t) : ∃ stage', At t stage' := by
  obtain ⟨hallowed, hguard⟩ := hguard
  -- Steps that bring no new pipe.
  have hpipes {r : Option (Router Pipe)}
      (hlink : ∀ r', r = some r' → Link r' stage.mid s.known ∧ Env s.rep.router r' fun _ => False)
      (ht : s.between (s.withRouter r) = some t) : ∃ stage', At t stage' :=
    ⟨stage, h.withRouter hlink nofun (fun _ hq => hq) ht⟩
  cases input with
  | attach pipe items =>
    refine ⟨stage, h.withRouter (fun r' hr' => h.link.connect hallowed.1 hallowed.2 hr') ?_ ?_ ht⟩
    · rintro q rfl
      exact hallowed.1
    · exact fun q hq => mem_cons_of_mem pipe hq
  | deliver pipe items => exact hpipes (fun r' hr' => h.link.deliver hallowed.2 hr') ht
  | close pipe reads takenBack =>
    refine hpipes (fun r' hr' => ?_) ht
    cases hr'
    exact h.link.close hguard
  | setRoom pipe room =>
    refine hpipes (fun r' hr' => ?_) ht
    cases hr'
    exact h.link.setRoom room
  | activateRead pipe => exact hpipes (fun r' hr' => h.link.activateRead hallowed hr') ht
  | activateWrite pipe => exact hpipes (fun r' hr' => h.link.activateWrite hr') ht
  | terminated pipe =>
    exact hpipes (fun r' hr' =>
      h.link.xpipeTerminated hallowed.1 hallowed.2.1 hallowed.2.2 hguard hr') ht
  | start call =>
    obtain ⟨hcall, ht⟩ := ite_none_left_eq_some.mp ht
    cases ht
    unfold Rep.start
    split
    · exact ⟨stage, h⟩
    · rename_i hsending
      refine ⟨stage, h.setCall ?_ (Bool.eq_false_iff.mpr hsending) (some call)⟩
      rw [not_isSome_iff_eq_none.mp hcall]
      exact nofun
  | turn =>
    cases hcall : s.rep.call with
    | none =>
      have hturn : s.turn = none := by
        unfold System.turn
        rw [hcall]
      cases hturn.symm.trans ht
    | some call =>
      cases call with
      | recv => exact h.turn_recv hcall (hguard hcall) ht
      | hasIn => exact h.turn_hasIn hcall ht
  | send m =>
    obtain ⟨-, ht⟩ := ite_none_left_eq_some.mp ht
    exact h.send ht

def Staged (s : System Pipe) : Prop := ∃ stage, At s stage

theorem At.answered (h : At s stage) : Answered s := by
  refine { h.recorded with requests := ?_, received := ?_, order := h.link.stream.inv.served.order }
  · intro p
    exact (sublist_append_left ..).trans (h.recorded.requests p)
  · intro p
    exact ⟨stage.pending p, (h.recorded.pending p).symm⟩

end Runs

/-- In every run in which requests without a delimiter come from pipes that can be written to and
no pipe goes away in the middle of its request, what is flushed to a peer are the replies to its
requests. -/
theorem answered_of_reach {s : System Pipe} (h : Runs.Reach Initial Guard step s) : Answered s := by
  have hat : Staged s := by
    refine h.invariant ?_ ?_
    · intro s hs
      exact ⟨.idle, At.initial hs⟩
    · rintro s i t ⟨stage, hat⟩ hguard hstep
      exact hat.step hguard hstep
  obtain ⟨stage, hat⟩ := hat
  exact hat.answered

/-- A request without a delimiter, one whose pipe is full when it comes, and two that are answered;
one peer goes away before its reply. -/
def busyRun : List (Input Nat) :=
  [.attach 0 [{ data := [65] }, { data := [1] }], .attach 1 [{ data := [66] }],
    .start .recv, .turn, .turn, .turn,
    .deliver 1 [{ data := [7], flags := { more := true } }, { flags := { more := true } },
      { data := [2] }], .activateRead 1,
    .start .hasIn, .turn, .start .recv, .turn, .turn, .turn, .turn,
    .send { data := [3], flags := { more := true } }, .send { data := [4] },
    .deliver 0 [{ flags := { more := true } }, { data := [5] }], .activateRead 0, .setRoom 0 false,
    .start .recv, .turn, .turn, .turn, .send { data := [6] },
    .setRoom 0 true, .activateWrite 0,
    .deliver 1 [{ flags := { more := true } }, { data := [8] }], .activateRead 1,
    .start .recv, .turn, .turn, .turn, .close 1 false true, .terminated 1, .send { data := [9] }]

theorem busyRun_answered :
    ∃ s : System Nat, Runs.Reach Initial Guard step s ∧
      s.exchanges.map (fun e => (e.peer, e.writable)) = [(1, true), (0, false), (1, false)] ∧
      (s.rep.router.sinks 1).queue.flushed = [{ data := [7], flags := { more := true } },
        { flags := { more := true } }, { data := [3], flags := { more := true } },
        { data := [4] }] ∧ Answered s := by
  refine Runs.Reach.of_exec_two (s := { rep := { router := { nextIntegralRoutingId := 0 } } }) Guard
    step busyRun ?_ ⟨0, rfl⟩ fun s hs => answered_of_reach hs
  decide +kernel

/-- A peer whose pipe is full sends a request without a delimiter. The routing id of the next
request is then dropped, and its reply is lost, though its pipe can be written to all the time. -/
theorem lost_after_malformed :
    ∃ s : System Nat, Runs.Reach Initial Allowed step s ∧
      s.exchanges =
        [⟨1, [{ flags := { more := true } }, { data := [2] }], [{ data := [3] }], true⟩] ∧
      (s.rep.router.sinks 1).queue.flushed = [] ∧ ¬ Answered s := by
  have hrun : ∃ s : System Nat, Runs.Reach Initial Allowed step s ∧
      s.exchanges =
        [⟨1, [{ flags := { more := true } }, { data := [2] }], [{ data := [3] }], true⟩] ∧
      (s.rep.router.sinks 1).queue.flushed = [] := by
    refine Runs.Reach.of_exec (s := { rep := { router := { nextIntegralRoutingId := 0 } } }) Allowed
      step [.attach 0 [{ data := [65] }], .attach 1 [{ data := [66] }], .setRoom 0 false,
        .deliver 0 [{ data := [1] }], .activateRead 0, .start .recv, .turn, .turn, .turn,
        .deliver 1 [{ flags := { more := true } }, { data := [2] }], .activateRead 1,
        .start .recv, .turn, .turn, .turn, .send { data := [3] }] ?_ ⟨0, rfl⟩
    decide +kernel
  obtain ⟨s, hreach, hexchanges, hflushed⟩ := hrun
  refine ⟨s, hreach, hexchanges, hflushed, fun hanswered => ?_⟩
  obtain ⟨delivered, heq, -, hsub⟩ := hanswered.flushed 1
  have hall : s.exchangesOf 1 = s.exchanges := by
    rw [System.exchangesOf, hexchanges]
    rfl
  rw [hall, hexchanges] at hsub
  have hin := hsub.subset mem_cons_self
  have hmessage := flatMap_eq_nil_iff.mp (heq.symm.trans hflushed) _ hin
  simp [Exchange.message] at hmessage

end Uzmq.Reps
