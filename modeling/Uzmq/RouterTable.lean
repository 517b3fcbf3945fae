import Uzmq.Directories
import Uzmq.FairQueueAtomicity
import Uzmq.Routers

/-!
# The routing table of a router

A pipe is anonymous until its peer has sent a routing id. Then it is in the fair queue, and the
table has it under its own routing id and under no other one. Most of what a router does leaves
the table alone up to the flags of its entries.

Automatic routing ids start with a zero byte, but so may those of peers. If an automatic id is in
the table already, the assertion that it is not there fails.
-/

namespace Uzmq.Routers

open Option List Function
open Message
open FairQueues (Fair Source)

variable {Pipe : Type} [DecidableEq Pipe]

def Router.target (r : Router Pipe) (id : Blob) : Option Pipe :=
  (r.outpipes.lookup id).map (·.pipe)

structure Table (r : Router Pipe) : Prop where
  fair : Fair r.queues
  directory : Directory r.target r.routingId (· ∈ r.queues.attached)
  named : ∀ p ∈ r.queues.attached, r.routingId p ≠ []
  apart : ∀ p ∈ r.anonymousPipes, p ∉ r.queues.attached
  nodup : r.anonymousPipes.Nodup

section Target
variable {r : Router Pipe}

theorem table_new (hqueues : r.queues = {}) (houtpipes : r.outpipes = ∅)
    (hanonymous : r.anonymousPipes = []) : Table r := by
  constructor
  · rw [hqueues]
    exact FairQueues.inv_new.fair
  · intro id p
    simp [Router.target, hqueues, houtpipes]
  · simp [hqueues]
  · simp [hanonymous]
  · simp [hanonymous]

omit [DecidableEq Pipe]

theorem target_insert (id : Blob) (outpipe : Outpipe Pipe) :
    { r with outpipes := r.outpipes.insert id outpipe }.target =
      update r.target id (some outpipe.pipe) := by
  funext key
  rcases eq_or_ne key id with rfl | h
  · simp [Router.target]
  · simp [Router.target, AList.lookup_insert_ne h, update_of_ne h]

theorem target_erase (id : Blob) :
    { r with outpipes := r.outpipes.erase id }.target = update r.target id none := by
  funext key
  rcases eq_or_ne key id with rfl | h
  · simp [Router.target]
  · simp [Router.target, AList.lookup_erase_ne h, update_of_ne h]

theorem target_eq_none {id : Blob} : r.target id = none ↔ id ∉ r.outpipes := by
  rw [Router.target, map_eq_none_iff, AList.lookup_eq_none]

theorem target_replace {id : Blob} {outpipe outpipe' : Outpipe Pipe}
    (h : r.outpipes.lookup id = some outpipe) (hpipe : outpipe'.pipe = outpipe.pipe) :
    { r with outpipes := r.outpipes.insert id outpipe' }.target = r.target := by
  rw [target_insert, update_eq_self_iff, hpipe, Router.target, h]
  rfl

end Target

/-- The table is the same up to the flags of its entries. -/
structure Frame (r r' : Router Pipe) : Prop where
  attached : r'.queues.attached = r.queues.attached
  target : r'.target = r.target
  routingId : r'.routingId = r.routingId
  anonymous : r'.anonymousPipes = r.anonymousPipes
  connect : r.connectRoutingId = [] → r'.connectRoutingId = []
  fair : Fair r.queues → Fair r'.queues

variable {fetched : Fetched}

section Frames
variable {r r' r'' : Router Pipe} {pipe : Pipe} {m : Msg}

theorem Frame.refl (r : Router Pipe) : Frame r r :=
  ⟨rfl, rfl, rfl, rfl, fun h => h, fun h => h⟩

theorem Frame.trans (h : Frame r r') (h' : Frame r' r'') : Frame r r'' :=
  ⟨h'.attached.trans h.attached, h'.target.trans h.target, h'.routingId.trans h.routingId,
    h'.anonymous.trans h.anonymous, fun hnil => h'.connect (h.connect hnil),
    fun hfair => h'.fair (h.fair hfair)⟩

theorem Frame.of_eq (h : (r'.queues, r'.outpipes, r'.routingId, r'.anonymousPipes,
      r'.connectRoutingId) = (r.queues, r.outpipes, r.routingId, r.anonymousPipes,
      r.connectRoutingId)) : Frame r r' := by
  simp only [Prod.mk.injEq] at h
  obtain ⟨hqueues, houtpipes, hid, hanonymous, hconnect⟩ := h
  refine ⟨by rw [hqueues], ?_, hid, hanonymous, hconnect.trans, fun hfair => by rwa [hqueues]⟩
  funext key
  rw [Router.target, Router.target, houtpipes]

theorem Frame.table (h : Frame r r') (hr : Table r) : Table r' := by
  constructor
  · exact h.fair hr.fair
  · rw [h.target, h.routingId, h.attached]
    exact hr.directory
  · rw [h.attached, h.routingId]
    exact hr.named
  · rw [h.anonymous, h.attached]
    exact hr.apart
  · rw [h.anonymous]
    exact hr.nodup

theorem frame_setSink (r : Router Pipe) (pipe : Pipe) (sink : Sink) :
    Frame r (r.setSink pipe sink) := .of_eq rfl

theorem frame_setSource {source : Source}
    (h : (r.queues.sources pipe).inActive = true → source.inActive = true) :
    Frame r (r.setSource pipe source) :=
  ⟨rfl, rfl, rfl, rfl, fun hnil => hnil,
    fun hfair => hfair.setSource pipe source fun hactive => h (hfair.inActive pipe hactive)⟩

theorem frame_stopReading (r : Router Pipe) (pipe : Pipe) : Frame r (r.stopReading pipe) :=
  frame_setSource id

theorem frame_terminate (r : Router Pipe) (pipe : Pipe) (delay : Bool) :
    Frame r (r.terminate pipe delay) := by
  unfold Router.terminate
  dsimp only
  split
  · exact (frame_stopReading r pipe).trans (frame_setSink _ pipe _)
  split
  · split
    · exact frame_setSink r pipe _
    · exact (frame_stopReading r pipe).trans (frame_setSink _ pipe _)
  · exact .refl r

theorem frame_probe (r : Router Pipe) (pipe : Pipe) : Frame r (r.probe pipe) := by
  unfold Router.probe
  split
  · exact frame_setSink r pipe _
  · exact .refl r

theorem frame_xsetsockopt {option : SockOpt} (h : ∀ id, option ≠ .connectRoutingId id) :
    Frame r (r.xsetsockopt option) := by
  cases option with
  | connectRoutingId id => exact absurd rfl (h id)
  | raw | mandatory | probe | handover => exact .of_eq rfl

theorem frame_activateWrite (h : r.activateWrite pipe = some r') : Frame r r' := by
  unfold Router.activateWrite at h
  dsimp only at h
  split at h
  · split at h
    · cases h
    rename_i entry hentry
    split at h
    · cases h
    cases h
    have hmem := mem_of_find?_eq_some hentry
    refine ⟨rfl, ?_, rfl, rfl, id, id⟩
    exact target_replace (r := r.setSink pipe _)
      (mem_dlookup_iff r.outpipes.nodupKeys |>.mpr hmem) rfl
  · cases h
    exact .refl r

theorem frame_address (r : Router Pipe) (m : Msg) : Frame r (r.address m).1 := by
  unfold Router.address
  split
  · split
    · exact .refl r
    · exact .of_eq rfl
  rename_i outpipe hlookup
  split
  · exact .of_eq rfl
  have hframe (sink : Sink) : Frame r { r.setSink outpipe.pipe sink with
      outpipes := r.outpipes.insert m.data { outpipe with active := false } } :=
    ⟨rfl, target_replace (r := r.setSink outpipe.pipe sink) hlookup rfl, rfl, rfl, id, id⟩
  dsimp only
  split
  · exact hframe _
  · exact (hframe _).trans (.of_eq rfl)

theorem frame_push (r : Router Pipe) (pipe : Pipe) (m : Msg) : Frame r (r.push pipe m) := by
  unfold Router.push
  split
  · exact (frame_terminate r pipe false).trans (.of_eq rfl)
  split
  · exact .of_eq rfl
  · split
    · exact frame_setSink r pipe _
    · exact .of_eq rfl

theorem frame_xsend {sent : Sent} (h : r.xsend m = some (r', sent)) : Frame r r' := by
  unfold Router.xsend at h
  split at h
  · split at h
    · cases h
    split at h
    · have heq := some.inj h
      have hframe := frame_address r m
      rw [heq] at hframe
      exact hframe
    · cases h
      exact .refl r
  · dsimp only at h
    split at h
    · cases h
      exact .of_eq rfl
    · cases h
      have hmore (more : Bool) : Frame r { r with moreOut := more } := .of_eq rfl
      exact (hmore _).trans (frame_push _ _ _)

theorem frame_rollback (r : Router Pipe) : Frame r r.rollback := by
  unfold Router.rollback
  split
  · exact .refl r
  · exact .of_eq rfl

theorem frame_recvpipe {part : Option (Pipe × Msg)} (h : r.recvpipe = some (r', part)) :
    Frame r r' := by
  obtain ⟨received, hreceived, heq⟩ := map_eq_some_iff.mp h
  cases heq
  refine ⟨?_, rfl, rfl, rfl, id, fun hfair => (hfair.recvpipe hreceived).1⟩
  unfold FairQueues.System.received
  split <;> rfl

theorem frame_finish (h : r.finish = some r') : Frame r r' := by
  unfold Router.finish at h
  split at h
  · split at h
    · cases h
    · cases h
      exact (frame_terminate r _ true).trans (.of_eq rfl)
  · cases h
    exact .of_eq rfl

theorem frame_returned (h : r.returned m = some (r', fetched)) : Frame r r' := by
  unfold Router.returned at h
  split at h
  · cases h
    exact .of_eq rfl
  · obtain ⟨r₁, hr₁, heq⟩ := map_eq_some_iff.mp h
    cases heq
    exact (.of_eq rfl : Frame r { r with moreIn := false }).trans (frame_finish hr₁)

theorem frame_fetch (h : r.fetch = some (r', fetched)) : Frame r r' := by
  unfold Router.fetch at h
  split at h
  · split at h
    · exact (.of_eq rfl : Frame r { r with routingIdSent := true }).trans (frame_returned h)
    · exact (.of_eq rfl : Frame r { r with prefetched := false }).trans (frame_returned h)
  · split at h
    · cases h
    · rename_i r₁ hrecv
      cases h
      exact frame_recvpipe hrecv
    rename_i r₁ pipe part hrecv
    have hframe := frame_recvpipe hrecv
    split at h
    · cases h
      exact hframe
    split at h
    · exact hframe.trans (frame_returned h)
    · cases h
      exact hframe.trans (.of_eq rfl)

theorem frame_look {answer : Option Bool} (h : r.look = some (r', answer)) : Frame r r' := by
  unfold Router.look at h
  split at h
  · cases h
    exact .refl r
  split at h
  · cases h
  · rename_i r₁ hrecv
    cases h
    exact frame_recvpipe hrecv
  rename_i r₁ pipe part hrecv
  have hframe := frame_recvpipe hrecv
  split at h
  · cases h
    exact hframe
  · cases h
    exact hframe.trans (.of_eq rfl)

end Frames

/-- A pipe that is not in the fair queue yet is in the table. -/
structure Adopted (r : Router Pipe) (pipe : Pipe) (r' : Router Pipe) : Prop where
  attached : r'.queues.attached = r.queues.attached
  anonymous : r'.anonymousPipes = r.anonymousPipes
  connect : r.connectRoutingId = [] → r'.connectRoutingId = []
  fair : Fair r'.queues
  directory : Directory r'.target r'.routingId fun q => q ∈ r.queues.attached ∨ q = pipe
  named : ∀ q, q ∈ r.queues.attached ∨ q = pipe → r'.routingId q ≠ []

section Identification
variable {r r' : Router Pipe} {pipe : Pipe} {id : Blob} {ok : Bool}

theorem integralRoutingId_ne_nil (n : UInt32) : integralRoutingId n ≠ [] := List.cons_ne_nil _ _

theorem Table.adopt (h : Table r) (hnew : pipe ∉ r.queues.attached) (hid : id ≠ [])
    (hadopt : r.adopt pipe id = some r') : Adopted r pipe r' := by
  unfold Router.adopt Router.emplace at hadopt
  split at hadopt
  · cases hadopt
  rename_i hfree
  cases hadopt
  refine ⟨rfl, rfl, fun hnil => hnil, h.fair, ?_, ?_⟩
  · rw [target_insert (r := { r with routingId := update r.routingId pipe id })]
    exact h.directory.add (target_eq_none.mpr hfree) hnew
  intro q hq
  rcases eq_or_ne q pipe with rfl | heq
  · simpa using hid
  · simpa [heq] using h.named q (hq.resolve_right heq)

theorem adopt_isSome (pipe : Pipe) (hfree : id ∉ r.outpipes) : ∃ r', r.adopt pipe id = some r' :=
  ⟨_, if_neg hfree⟩

theorem frame_draw (r : Router Pipe) : Frame r r.draw := .of_eq rfl

/-- The table after the pipe under a routing id has got an automatic one. -/
theorem Table.reassign {existing : Outpipe Pipe} (h : Table r)
    (hlookup : r.outpipes.lookup id = some existing)
    (hreassign : r.reassign id existing = some r') :
    Table r' ∧ r'.queues.attached = r.queues.attached ∧ r'.anonymousPipes = r.anonymousPipes ∧
      (r.connectRoutingId = [] → r'.connectRoutingId = []) ∧ r'.target id = none := by
  have htarget : r.target id = some existing.pipe := by
    rw [Router.target, hlookup]
    rfl
  unfold Router.reassign Router.emplace at hreassign
  dsimp only at hreassign
  split at hreassign
  · cases hreassign
  rename_i r₁ hr₁
  split at hr₁
  · cases hr₁
  rename_i hfree
  obtain ⟨new, hnew⟩ : ∃ new, new = integralRoutingId r.nextIntegralRoutingId := ⟨_, rfl⟩
  rw [← hnew] at hfree hr₁
  have htable : Table { r₁ with outpipes := r₁.outpipes.erase id } := by
    cases hr₁
    refine ⟨h.fair, ?_, ?_, h.apart, h.nodup⟩
    · rw [target_erase, target_insert (r := { r.draw with
        routingId := update r.routingId existing.pipe new })]
      exact h.directory.rename htarget (target_eq_none.mpr hfree)
    intro q hq
    rcases eq_or_ne q existing.pipe with rfl | heq
    · simpa [hnew] using integralRoutingId_ne_nil _
    · simpa [heq] using h.named q hq
  have hsame : { r₁ with outpipes := r₁.outpipes.erase id }.target id = none := by
    rw [target_erase, update_self]
  have hframe : Frame { r₁ with outpipes := r₁.outpipes.erase id } r' := by
    split at hreassign
    · cases hreassign
      exact .of_eq rfl
    · cases hreassign
      exact frame_terminate _ _ true
  refine ⟨hframe.table htable, ?_, ?_, ?_, ?_⟩
  · rw [hframe.attached]
    cases hr₁
    rfl
  · rw [hframe.anonymous]
    cases hr₁
    rfl
  · intro hnil
    refine hframe.connect ?_
    cases hr₁
    exact hnil
  · rw [hframe.target]
    exact hsame

/-- What becomes of a pipe that is to be identified. -/
structure Identified (r : Router Pipe) (pipe : Pipe) (r' : Router Pipe) (ok : Bool) : Prop where
  refused : ok = false → Frame r r'
  adopted : ok = true → Adopted r pipe r'

theorem Adopted.identified (h : Adopted r pipe r') : Identified r pipe r' true :=
  ⟨nofun, fun _ => h⟩

variable {r₁ : Router Pipe} {m : Msg}

theorem Adopted.of_eq (hattached : r₁.queues.attached = r.queues.attached)
    (hanonymous : r₁.anonymousPipes = r.anonymousPipes)
    (hconnect : r.connectRoutingId = [] → r₁.connectRoutingId = []) (h : Adopted r₁ pipe r') :
    Adopted r pipe r' := by
  refine ⟨h.attached.trans hattached, h.anonymous.trans hanonymous,
    fun hnil => h.connect (hconnect hnil), h.fair, ?_, ?_⟩
  · rw [← hattached]
    exact h.directory
  · rw [← hattached]
    exact h.named

theorem Identified.of_frame (hframe : Frame r r₁) (h : Identified r₁ pipe r' ok) :
    Identified r pipe r' ok :=
  ⟨fun hok => hframe.trans (h.refused hok),
    fun hok => (h.adopted hok).of_eq hframe.attached hframe.anonymous hframe.connect⟩

theorem Table.draw_adopt (h : Table r) (hnew : pipe ∉ r.queues.attached)
    (hadopt : (r.draw.adopt pipe (integralRoutingId r.nextIntegralRoutingId)).map (·, true) =
      some (r', ok)) : Identified r pipe r' ok := by
  obtain ⟨r₁, hr₁, heq⟩ := map_eq_some_iff.mp hadopt
  cases heq
  have hframe := frame_draw r
  have hadopted := (hframe.table h).adopt (by rwa [hframe.attached]) (integralRoutingId_ne_nil _)
    hr₁
  exact (hadopted.of_eq hframe.attached hframe.anonymous hframe.connect).identified

theorem Table.identifyBy (h : Table r) (hnew : pipe ∉ r.queues.attached)
    (hidentify : r.identifyBy pipe m = some (r', ok)) : Identified r pipe r' ok := by
  unfold Router.identifyBy at hidentify
  split at hidentify
  · exact h.draw_adopt hnew hidentify
  rename_i hdata
  split at hidentify
  · obtain ⟨r₁, hr₁, heq⟩ := map_eq_some_iff.mp hidentify
    cases heq
    exact (h.adopt hnew hdata hr₁).identified
  rename_i existing hlookup
  split at hidentify
  · cases hidentify
    exact ⟨fun _ => .refl r, nofun⟩
  split at hidentify
  · cases hidentify
  rename_i r₁ hreassign
  obtain ⟨r₂, hr₂, heq⟩ := map_eq_some_iff.mp hidentify
  cases heq
  obtain ⟨htable, hattached, hanonymous, hconnect, -⟩ := h.reassign hlookup hreassign
  have hadopted := htable.adopt (by rwa [hattached]) hdata hr₂
  exact (hadopted.of_eq hattached hanonymous hconnect).identified

theorem frame_setSource_new (hnew : pipe ∉ r.queues.attached) (source : Source) :
    Frame r (r.setSource pipe source) := by
  refine ⟨rfl, rfl, rfl, rfl, id, fun hfair => hfair.setSource pipe source fun hactive => ?_⟩
  exact absurd ((hfair.mem pipe).mp (hfair.ok.mem_of_active hactive)) hnew

/-- A pipe that is to be attached. -/
theorem frame_new (hnew : pipe ∉ r.queues.attached) (source : Source) (sink : Sink) :
    Frame r ((r.setSource pipe source).setSink pipe sink) :=
  (frame_setSource_new hnew source).trans (frame_setSink _ pipe sink)

theorem Table.identifyPeer (h : Table r) (hnew : pipe ∉ r.queues.attached)
    (hidentify : r.identifyPeer pipe = some (r', ok)) : Identified r pipe r' ok := by
  unfold Router.identifyPeer at hidentify
  split at hidentify
  · rename_i hconnect
    split at hidentify
    · cases hidentify
    obtain ⟨r₁, hr₁, heq⟩ := map_eq_some_iff.mp hidentify
    cases heq
    have hframe : Frame r { r with connectRoutingId := [] } :=
      ⟨rfl, rfl, rfl, rfl, fun _ => rfl, id⟩
    exact ((hframe.table h).adopt hnew hconnect hr₁).identified.of_frame hframe
  split at hidentify
  · exact h.draw_adopt hnew hidentify
  split at hidentify
  · rename_i source hread
    cases hidentify
    exact ⟨fun _ => frame_setSource_new hnew source, nofun⟩
  · rename_i m source hread
    have hframe := frame_setSource_new hnew source
    exact ((hframe.table h).identifyBy hnew hidentify).of_frame hframe

theorem Adopted.enqueue (h : Table r) (hadopted : Adopted r pipe r')
    (hnew : pipe ∉ r.queues.attached) (anonymous : List Pipe)
    (hsub : ∀ q ∈ anonymous, q ∈ r.anonymousPipes ∧ q ≠ pipe) (hnodup : anonymous.Nodup) :
    ∃ r'', { r' with anonymousPipes := anonymous }.enqueue pipe = some r'' ∧ Table r'' ∧
      r''.queues.attached = pipe :: r.queues.attached ∧ r''.anonymousPipes = anonymous ∧
      r''.connectRoutingId = r'.connectRoutingId := by
  obtain ⟨t, ht, hfair, hattached, -⟩ :=
    hadopted.fair.attach (r'.queues.sources pipe).queue (by rwa [hadopted.attached])
  rw [hadopted.attached] at hattached
  have hmem (q : Pipe) : q ∈ t.attached ↔ q ∈ r.queues.attached ∨ q = pipe := by
    rw [hattached, mem_cons, or_comm]
  refine ⟨{ r' with anonymousPipes := anonymous, queues := t }, ?_, ?_, hattached, rfl, rfl⟩
  · rw [Router.enqueue, ht]
    rfl
  refine ⟨hfair, hadopted.directory.congr hmem, ?_, ?_, hnodup⟩
  · intro q hq
    exact hadopted.named q ((hmem q).mp hq)
  · intro q hq hin
    obtain ⟨hold, hne⟩ := hsub q hq
    exact h.apart q hold (((hmem q).mp hin).resolve_right hne)

theorem Adopted.enqueue_isSome (h : Table r) (hadopted : Adopted r pipe r')
    (hnew : pipe ∉ r.queues.attached) (anonymous : List Pipe) :
    ∃ r'', { r' with anonymousPipes := anonymous }.enqueue pipe = some r'' := by
  obtain ⟨r₂, hr₂, -⟩ := hadopted.enqueue h hnew [] (by simp) nodup_nil
  obtain ⟨queues, hqueues, -⟩ := map_eq_some_iff.mp hr₂
  exact ⟨_, map_eq_some_iff.mpr ⟨queues, hqueues, rfl⟩⟩

/-- `identify_peer` draws an automatic routing id if it reads from this pipe. -/
def Router.Draws (r : Router Pipe) (source : Source) : Prop :=
  r.rawOption = true ∨ ∃ m ∈ source.read.1, m.data = [] ∨ (m.data ∈ r.outpipes ∧ r.handover = true)
  deriving Decidable

/-- If an automatic routing id is drawn, it is not in the table. -/
def Router.Free (r : Router Pipe) (source : Source) : Prop :=
  r.Draws source → integralRoutingId r.nextIntegralRoutingId ∉ r.outpipes
  deriving Decidable

theorem draw_adopt_isSome (pipe : Pipe)
    (h : integralRoutingId r.nextIntegralRoutingId ∉ r.outpipes) :
    ∃ r', (r.draw.adopt pipe (integralRoutingId r.nextIntegralRoutingId)).map (·, true) =
      some (r', true) := by
  obtain ⟨r', hr'⟩ := adopt_isSome (r := r.draw) pipe h
  exact ⟨r', by rw [hr']; rfl⟩

theorem Table.identifyBy_isSome (h : Table r)
    (hfree : m.data = [] ∨ (m.data ∈ r.outpipes ∧ r.handover = true) →
      integralRoutingId r.nextIntegralRoutingId ∉ r.outpipes) :
    ∃ r' ok, r.identifyBy pipe m = some (r', ok) := by
  unfold Router.identifyBy
  split
  · rename_i hdata
    obtain ⟨r', hr'⟩ := draw_adopt_isSome pipe (hfree (.inl hdata))
    exact ⟨r', true, hr'⟩
  split
  · rename_i hlookup
    obtain ⟨r', hr'⟩ := adopt_isSome pipe (AList.lookup_eq_none.mp hlookup)
    exact ⟨r', true, by rw [hr']; rfl⟩
  rename_i existing hlookup
  split
  · exact ⟨r, false, rfl⟩
  rename_i hhandover
  have hin : m.data ∈ r.outpipes := AList.lookup_isSome.mp (by rw [hlookup]; rfl)
  have hnew : integralRoutingId r.nextIntegralRoutingId ∉ r.draw.outpipes :=
    hfree (.inr ⟨hin, by simpa using hhandover⟩)
  obtain ⟨r₁, hr₁⟩ : ∃ r₁, r.reassign m.data existing = some r₁ := by
    unfold Router.reassign Router.emplace
    dsimp only
    rw [if_neg hnew]
    dsimp only
    split <;> exact ⟨_, rfl⟩
  obtain ⟨-, -, -, -, hnone⟩ := h.reassign hlookup hr₁
  obtain ⟨r', hr'⟩ := adopt_isSome pipe (target_eq_none.mp hnone)
  exact ⟨r', true, by rw [hr₁]; dsimp only; rw [hr']; rfl⟩

theorem Table.identifyPeer_isSome (h : Table r) (hnew : pipe ∉ r.queues.attached)
    (hconnect : r.connectRoutingId = []) (hfree : r.Free (r.queues.sources pipe)) :
    ∃ r' ok, r.identifyPeer pipe = some (r', ok) := by
  unfold Router.identifyPeer
  rw [if_neg fun hne => hne hconnect]
  split
  · rename_i hraw
    obtain ⟨r', hr'⟩ := draw_adopt_isSome pipe (hfree (.inl hraw))
    exact ⟨r', true, hr'⟩
  split
  · exact ⟨_, _, rfl⟩
  rename_i m source hread
  refine ((frame_setSource_new hnew source).table h).identifyBy_isSome ?_
  intro hdraws
  refine hfree (.inr ⟨m, ?_, hdraws⟩)
  rw [hread]
  rfl

end Identification

section Operations
variable {r r' : Router Pipe} {pipe : Pipe}

def Router.Has (r : Router Pipe) (pipe : Pipe) : Prop :=
  pipe ∈ r.anonymousPipes ∨ pipe ∈ r.queues.attached

instance (r : Router Pipe) (pipe : Pipe) : Decidable (r.Has pipe) :=
  inferInstanceAs (Decidable (_ ∨ _))

theorem Frame.has (h : Frame r r') (q : Pipe) : r'.Has q ↔ r.Has q := by
  rw [Router.Has, Router.Has, h.anonymous, h.attached]

theorem Table.xattachPipe (h : Table r) (hnew : ¬ r.Has pipe)
    (hattach : r.xattachPipe pipe = some r') :
    Table r' ∧ (∀ q, r'.Has q ↔ r.Has q ∨ q = pipe) ∧
      (r.connectRoutingId = [] → r'.connectRoutingId = []) := by
  have hprobe := frame_probe r pipe
  have htable := hprobe.table h
  have hout : pipe ∉ (r.probe pipe).queues.attached := by
    rw [hprobe.attached]
    exact fun hin => hnew (.inr hin)
  have hanonymous : pipe ∉ (r.probe pipe).anonymousPipes := by
    rw [hprobe.anonymous]
    exact fun hin => hnew (.inl hin)
  unfold Router.xattachPipe at hattach
  split at hattach
  · cases hattach
  · rename_i r₁ hidentify
    have hadopted := (htable.identifyPeer hout hidentify).adopted rfl
    obtain ⟨r₂, hr₂, htable₂, hattached, hsame, hconnect⟩ :=
      hadopted.enqueue htable hout r₁.anonymousPipes (by
        rw [hadopted.anonymous]
        intro q hq
        exact ⟨hq, by rintro rfl; exact hanonymous hq⟩) (by
        rw [hadopted.anonymous]
        exact htable.nodup)
    cases hattach.symm.trans hr₂
    refine ⟨htable₂, ?_, fun hnil => hconnect.trans (hadopted.connect (hprobe.connect hnil))⟩
    intro q
    rw [← hprobe.has q, Router.Has, Router.Has, hattached, hsame, hadopted.anonymous, mem_cons]
    tauto
  · rename_i r₁ hidentify
    cases hattach
    have hframe := (htable.identifyPeer hout hidentify).refused rfl
    have htable₁ := hframe.table htable
    refine ⟨{ htable₁ with apart := ?_, nodup := ?_ }, ?_,
      fun hnil => hframe.connect (hprobe.connect hnil)⟩
    · intro q hq
      rcases mem_cons.mp hq with rfl | hq
      · rw [hframe.attached]
        exact hout
      · exact htable₁.apart q hq
    · refine nodup_cons.mpr ⟨?_, htable₁.nodup⟩
      rw [hframe.anonymous]
      exact hanonymous
    · intro q
      rw [← hprobe.has q, ← hframe.has q, Router.Has, Router.Has, mem_cons]
      tauto

theorem Table.xattachPipe_isSome (h : Table r) (hnew : ¬ r.Has pipe)
    (hconnect : r.connectRoutingId = []) (hfree : r.Free (r.queues.sources pipe)) :
    ∃ r', r.xattachPipe pipe = some r' := by
  have hprobe := frame_probe r pipe
  have htable := hprobe.table h
  have hout : pipe ∉ (r.probe pipe).queues.attached := by
    rw [hprobe.attached]
    exact fun hin => hnew (.inr hin)
  have hfree' : (r.probe pipe).Free ((r.probe pipe).queues.sources pipe) := by
    unfold Router.probe
    split <;> exact hfree
  obtain ⟨r₁, ok, hidentify⟩ := htable.identifyPeer_isSome hout (hprobe.connect hconnect) hfree'
  unfold Router.xattachPipe
  rw [hidentify]
  cases ok with
  | true =>
    exact ((htable.identifyPeer hout hidentify).adopted rfl).enqueue_isSome htable hout _
  | false => exact ⟨_, rfl⟩

theorem Table.activateRead_isSome (h : Table r) (hin : r.Has pipe)
    (hconnect : r.connectRoutingId = [])
    (hfree : pipe ∈ r.anonymousPipes → (r.queues.sources pipe).inActive = false →
      (r.queues.sources pipe).readable = true →
        r.Free { r.queues.sources pipe with inActive := true }) :
    ∃ r', r.activateRead pipe = some r' := by
  unfold Router.activateRead
  dsimp only
  split
  · rename_i hpassive
    split
    · rename_i hanonymous
      have hnew := h.apart pipe hanonymous
      let source : Source := { r.queues.sources pipe with inActive := true }
      have hsource := frame_setSource_new (r := r) hnew source
      have htable := hsource.table h
      have hat : (r.setSource pipe source).queues.sources pipe = source := by
        simp [Router.setSource]
      have hfree' : (r.setSource pipe source).Free
          ((r.setSource pipe source).queues.sources pipe) := by
        rw [hat]
        exact hfree hanonymous hpassive.1 hpassive.2
      obtain ⟨r₁, ok, hidentify⟩ :=
        htable.identifyPeer_isSome hnew (hsource.connect hconnect) hfree'
      rw [hidentify]
      cases ok with
      | true =>
        exact ((htable.identifyPeer hnew hidentify).adopted rfl).enqueue_isSome htable hnew _
      | false => exact ⟨_, rfl⟩
    · rename_i hanonymous
      obtain ⟨t, ht, -⟩ := h.fair.activateRead (hin.resolve_left hanonymous)
      exact ⟨_, map_eq_some_iff.mpr ⟨t, ht, rfl⟩⟩
  · exact ⟨r, rfl⟩

theorem frame_deliver {items : List Msg} (h : r.deliver pipe items = some r') : Frame r r' := by
  obtain ⟨t, ht, heq⟩ := map_eq_some_iff.mp h
  cases heq
  cases ht
  refine ⟨rfl, rfl, rfl, rfl, id, fun hfair => ?_⟩
  have hsource := hfair.setSource pipe
    { r.queues.sources pipe with queue := (r.queues.sources pipe).queue ++ items }
    (hfair.inActive pipe)
  exact { hsource with }

theorem frame_close (r : Router Pipe) (pipe : Pipe) (reads takenBack : Bool) :
    Frame r (r.close pipe reads takenBack) := by
  cases reads with
  | true => exact frame_setSink r pipe _
  | false => exact (frame_stopReading r pipe).trans (frame_setSink _ pipe _)

theorem Table.activateRead (h : Table r) (hactivate : r.activateRead pipe = some r')
    (hin : r.Has pipe) :
    Table r' ∧ (∀ q, r'.Has q ↔ r.Has q) ∧
      (r.connectRoutingId = [] → r'.connectRoutingId = []) := by
  unfold Router.activateRead at hactivate
  dsimp only at hactivate
  split at hactivate
  · split at hactivate
    · rename_i hanonymous
      have hnew := h.apart pipe hanonymous
      have hsource := frame_setSource_new (r := r) hnew
        { r.queues.sources pipe with inActive := true }
      have htable := hsource.table h
      split at hactivate
      · cases hactivate
      · rename_i r₁ hidentify
        have hadopted := (htable.identifyPeer hnew hidentify).adopted rfl
        have hold : r₁.anonymousPipes = r.anonymousPipes := hadopted.anonymous
        obtain ⟨r₂, hr₂, htable₂, hattached, hsame, hconnect⟩ :=
          hadopted.enqueue htable hnew (r₁.anonymousPipes.erase pipe) (by
            rw [hold]
            intro q hq
            have hboth := (h.nodup.mem_erase_iff).mp hq
            exact ⟨hboth.2, hboth.1⟩) (by
            rw [hold]
            exact h.nodup.erase pipe)
        cases hactivate.symm.trans hr₂
        refine ⟨htable₂, ?_, fun hnil => hconnect.trans (hadopted.connect hnil)⟩
        intro q
        rw [Router.Has, Router.Has, hattached, hsame, hold, h.nodup.mem_erase_iff, mem_cons]
        change _ ∨ q = pipe ∨ q ∈ r.queues.attached ↔ _
        rcases eq_or_ne q pipe with rfl | hq
        · simp [hanonymous]
        · simp [hq]
      · rename_i r₁ hidentify
        cases hactivate
        have hframe := hsource.trans ((htable.identifyPeer hnew hidentify).refused rfl)
        exact ⟨hframe.table h, hframe.has, hframe.connect⟩
    · rename_i hanonymous
      obtain ⟨t, ht, heq⟩ := map_eq_some_iff.mp hactivate
      cases heq
      obtain ⟨t', ht', hfair, hattached⟩ := h.fair.activateRead (hin.resolve_left hanonymous)
      cases ht.symm.trans ht'
      have hframe : Frame r { r with queues := t } := ⟨hattached, rfl, rfl, rfl, id, fun _ => hfair⟩
      exact ⟨hframe.table h, hframe.has, hframe.connect⟩
  · cases hactivate
    exact ⟨h, fun _ => Iff.rfl, id⟩

theorem Table.xpipeTerminated (h : Table r) (hin : r.Has pipe) :
    ∃ r', r.xpipeTerminated pipe = some r' ∧ Table r' ∧
      (∀ q, r'.Has q ↔ r.Has q ∧ q ≠ pipe) ∧ r'.connectRoutingId = r.connectRoutingId := by
  unfold Router.xpipeTerminated
  split
  · rename_i hanonymous
    refine ⟨_, rfl, { h with apart := ?_, nodup := h.nodup.erase pipe }, ?_, rfl⟩
    · intro q hq
      exact h.apart q (mem_of_mem_erase hq)
    intro q
    rw [Router.Has, Router.Has, h.nodup.mem_erase_iff]
    have hnew := h.apart pipe hanonymous
    rcases eq_or_ne q pipe with rfl | hq
    · simp [hnew]
    · simp [hq]
  · rename_i hanonymous
    have hattached := hin.resolve_left hanonymous
    have htarget := (h.directory _ _).mpr ⟨hattached, rfl⟩
    have hkey : r.routingId pipe ∈ r.outpipes := by
      by_contra hnot
      cases htarget.symm.trans (target_eq_none.mpr hnot)
    obtain ⟨t, ht, hfair, hlist, -⟩ := h.fair.terminated hattached
    have hmem (q : Pipe) : q ∈ t.attached ↔ q ∈ r.queues.attached ∧ q ≠ pipe := by
      simp [hlist]
    rw [if_pos hkey, ht]
    refine ⟨_, rfl, ⟨hfair, ?_, ?_, ?_, h.nodup⟩, ?_, rfl⟩
    · have herase := (h.directory.remove hattached).congr hmem
      rw [← target_erase] at herase
      exact herase
    · intro q hq
      exact h.named q ((hmem q).mp hq).1
    · intro q hq hagain
      exact h.apart q hq ((hmem q).mp hagain).1
    · intro q
      simp only [Router.Has, hmem]
      rcases eq_or_ne q pipe with rfl | hq
      · simp [hanonymous]
      · simp [hq]

end Operations

structure System (Pipe : Type) where
  router : Router Pipe
  pipes : List Pipe := []

inductive Input (Pipe : Type) where
  | attach (pipe : Pipe) (items : List Msg)
  | deliver (pipe : Pipe) (items : List Msg)
  | close (pipe : Pipe) (reads takenBack : Bool)
  | setRoom (pipe : Pipe) (room : Bool)
  | activateRead (pipe : Pipe)
  | activateWrite (pipe : Pipe)
  | terminated (pipe : Pipe)
  | xsetsockopt (option : SockOpt)
  | fetch
  | look
  | send (m : Msg)

def System.withRouter (s : System Pipe) (r : Option (Router Pipe)) : Option (System Pipe) :=
  r.map fun router => { s with router := router }

def step (s : System Pipe) : Input Pipe → Option (System Pipe)
  | .attach pipe items =>
    { s with pipes := pipe :: s.pipes }.withRouter (s.router.connect pipe items)
  | .deliver pipe items => s.withRouter (s.router.deliver pipe items)
  | .close pipe reads takenBack => s.withRouter (some (s.router.close pipe reads takenBack))
  | .setRoom pipe room => s.withRouter (some (s.router.setRoom pipe room))
  | .activateRead pipe => s.withRouter (s.router.activateRead pipe)
  | .activateWrite pipe => s.withRouter (s.router.activateWrite pipe)
  | .terminated pipe =>
    { s with pipes := s.pipes.filter fun q => q ≠ pipe }.withRouter (s.router.xpipeTerminated pipe)
  | .xsetsockopt option => s.withRouter (some (s.router.xsetsockopt option))
  | .fetch => s.withRouter (s.router.fetch.map Prod.fst)
  | .look => s.withRouter (s.router.look.map Prod.fst)
  | .send m => s.withRouter ((s.router.xsend m).map Prod.fst)

/-- Pipes are attached once, commands come to attached pipes, and `connect_routing_id` is not
used. -/
def Allowed (s : System Pipe) : Input Pipe → Prop
  | .attach pipe _ => pipe ∉ s.pipes
  | .deliver pipe _ => pipe ∈ s.pipes
  | .close pipe _ _ => pipe ∈ s.pipes
  | .setRoom pipe _ => pipe ∈ s.pipes
  | .activateRead pipe => pipe ∈ s.pipes
  | .activateWrite pipe => pipe ∈ s.pipes
  | .terminated pipe => pipe ∈ s.pipes
  | .xsetsockopt (.connectRoutingId _) => False
  | _ => True

/-- An automatic routing id that is drawn is not in the table. -/
def Unused (s : System Pipe) : Input Pipe → Prop
  | .attach _ items => s.router.Free { queue := items }
  | .activateRead pipe =>
    pipe ∈ s.router.anonymousPipes → (s.router.queues.sources pipe).inActive = false →
      (s.router.queues.sources pipe).readable = true →
        s.router.Free { s.router.queues.sources pipe with inActive := true }
  | _ => True

def Guard (s : System Pipe) (i : Input Pipe) : Prop := Allowed s i ∧ Unused s i

instance (s : System Pipe) (i : Input Pipe) : Decidable (Allowed s i) := by
  unfold Allowed
  split <;> infer_instance

instance (s : System Pipe) (i : Input Pipe) : Decidable (Guard s i) := by
  unfold Guard Unused
  cases i <;> infer_instance

/-- A socket without pipes and `connect_routing_id`. -/
def Initial (s : System Pipe) : Prop :=
  ∃ n mandatory rawSocket rawOption probeRouter handover, s = {
    router := {
      nextIntegralRoutingId := n, mandatory := mandatory, rawSocket := rawSocket
      rawOption := rawOption, probeRouter := probeRouter, handover := handover } }

/-- A pipe is only anonymous, or it is in the fair queue, and the table has it under its own
routing id and no other one. -/
def Placed (r : Router Pipe) (pipe : Pipe) : Prop :=
  pipe ∈ r.anonymousPipes ∧ pipe ∉ r.queues.fq.rota.slots.items ∧
      (∀ id, r.target id ≠ some pipe) ∨
    pipe ∉ r.anonymousPipes ∧ pipe ∈ r.queues.fq.rota.slots.items ∧
      ∀ id, r.target id = some pipe ↔ id = r.routingId pipe

/-- The inputs for which `identify_peer` or `xpipe_terminated` is called. -/
def Input.Registers : Input Pipe → Prop
  | .attach _ _ => True
  | .activateRead _ => True
  | .terminated _ => True
  | _ => False

structure Routed (s : System Pipe) : Prop where
  total : ∀ i, i.Registers → Guard s i → ∃ t, step s i = some t
  placed : ∀ p ∈ s.pipes, Placed s.router p

structure Inv (s : System Pipe) : Prop where
  table : Table s.router
  pipes : ∀ q, q ∈ s.pipes ↔ s.router.Has q
  connect : s.router.connectRoutingId = []

section Steps
variable {s t : System Pipe} {pipe : Pipe}

theorem Inv.of_frame {o : Option (Router Pipe)} (h : Inv s) (hstep : s.withRouter o = some t)
    (hframe : ∀ r, o = some r → Frame s.router r) : Inv t := by
  obtain ⟨r, hr, rfl⟩ := map_eq_some_iff.mp hstep
  have hframe := hframe r hr
  refine ⟨hframe.table h.table, ?_, hframe.connect h.connect⟩
  intro q
  rw [hframe.has]
  exact h.pipes q

theorem Inv.attach {items : List Msg} (h : Inv s) (hnew : pipe ∉ s.pipes)
    (hstep : step s (.attach pipe items) = some t) : Inv t := by
  obtain ⟨r, hr, rfl⟩ := map_eq_some_iff.mp hstep
  have hhas : ¬ s.router.Has pipe := fun hin => hnew ((h.pipes pipe).mpr hin)
  have hframe := frame_new (fun hin => hhas (.inr hin)) { queue := items } {}
  obtain ⟨htable, hmem, hconnect⟩ :=
    (hframe.table h.table).xattachPipe (by rwa [hframe.has]) hr
  refine ⟨htable, ?_, hconnect (hframe.connect h.connect)⟩
  intro q
  rw [hmem, hframe.has, ← h.pipes, mem_cons, or_comm]

theorem Inv.step {i : Input Pipe} (h : Inv s) (hi : Allowed s i) (hstep : step s i = some t) :
    Inv t := by
  cases i with
  | attach pipe items => exact h.attach hi hstep
  | deliver pipe items => exact h.of_frame hstep fun r hr => frame_deliver hr
  | close pipe reads takenBack =>
    refine h.of_frame hstep ?_
    rintro r ⟨⟩
    exact frame_close _ pipe reads takenBack
  | setRoom pipe room =>
    refine h.of_frame hstep ?_
    rintro r ⟨⟩
    exact frame_setSink _ pipe _
  | activateRead pipe =>
    obtain ⟨r, hr, rfl⟩ := map_eq_some_iff.mp hstep
    obtain ⟨htable, hmem, hconnect⟩ := h.table.activateRead hr ((h.pipes pipe).mp hi)
    exact ⟨htable, fun q => (h.pipes q).trans (hmem q).symm, hconnect h.connect⟩
  | activateWrite pipe => exact h.of_frame hstep fun r hr => frame_activateWrite hr
  | terminated pipe =>
    obtain ⟨r, hr, rfl⟩ := map_eq_some_iff.mp hstep
    obtain ⟨r', hr', htable, hmem, hconnect⟩ := h.table.xpipeTerminated ((h.pipes pipe).mp hi)
    cases hr.symm.trans hr'
    refine ⟨htable, ?_, hconnect.trans h.connect⟩
    intro q
    rw [hmem, ← h.pipes]
    simp
  | xsetsockopt option =>
    refine h.of_frame hstep ?_
    rintro r ⟨⟩
    refine frame_xsetsockopt ?_
    rintro id rfl
    exact hi
  | fetch =>
    refine h.of_frame hstep fun r hr => ?_
    obtain ⟨⟨r', fetched⟩, hfetch, rfl⟩ := map_eq_some_iff.mp hr
    exact frame_fetch hfetch
  | look =>
    refine h.of_frame hstep fun r hr => ?_
    obtain ⟨⟨r', answer⟩, hlook, rfl⟩ := map_eq_some_iff.mp hr
    exact frame_look hlook
  | send m =>
    refine h.of_frame hstep fun r hr => ?_
    obtain ⟨⟨r', sent⟩, hsend, rfl⟩ := map_eq_some_iff.mp hr
    exact frame_xsend hsend

theorem Inv.total {i : Input Pipe} (h : Inv s) (hregisters : i.Registers) (hi : Guard s i) :
    ∃ t, Routers.step s i = some t := by
  obtain ⟨hallowed, hunused⟩ := hi
  cases i with
  | attach pipe items =>
    have hhas : ¬ s.router.Has pipe := fun hin => hallowed ((h.pipes pipe).mpr hin)
    have hframe := frame_new (fun hin => hhas (.inr hin)) { queue := items } {}
    have hat : ((s.router.setSource pipe { queue := items }).setSink pipe {}).queues.sources pipe =
        { queue := items } := by
      simp [Router.setSource, Router.setSink]
    obtain ⟨r, hr⟩ : ∃ r, ((s.router.setSource pipe { queue := items }).setSink pipe
        {}).xattachPipe pipe = some r := (hframe.table h.table).xattachPipe_isSome
      (by rwa [hframe.has]) (hframe.connect h.connect) (by rw [hat]; exact hunused)
    exact ⟨_, map_eq_some_iff.mpr ⟨r, hr, rfl⟩⟩
  | activateRead pipe =>
    obtain ⟨r, hr⟩ := h.table.activateRead_isSome ((h.pipes pipe).mp hallowed) h.connect hunused
    exact ⟨_, map_eq_some_iff.mpr ⟨r, hr, rfl⟩⟩
  | terminated pipe =>
    obtain ⟨r, hr, -⟩ := h.table.xpipeTerminated ((h.pipes pipe).mp hallowed)
    exact ⟨_, map_eq_some_iff.mpr ⟨r, hr, rfl⟩⟩
  | _ => cases hregisters

theorem Inv.placed (h : Inv s) (hin : pipe ∈ s.pipes) : Placed s.router pipe := by
  rcases (h.pipes pipe).mp hin with hanonymous | hattached
  · have hnew := h.table.apart pipe hanonymous
    refine .inl ⟨hanonymous, fun hslot => hnew ((h.table.fair.mem pipe).mp hslot), ?_⟩
    intro id htarget
    exact hnew ((h.table.directory id pipe).mp htarget).1
  · refine .inr ⟨fun hanonymous => h.table.apart pipe hanonymous hattached,
      (h.table.fair.mem pipe).mpr hattached, ?_⟩
    intro id
    rw [h.table.directory id pipe]
    constructor
    · rintro ⟨-, rfl⟩
      rfl
    · rintro rfl
      exact ⟨hattached, rfl⟩

end Steps

theorem inv_initial {s : System Pipe} (h : Initial s) : Inv s := by
  obtain ⟨n, mandatory, rawSocket, rawOption, probeRouter, handover, rfl⟩ := h
  refine ⟨table_new rfl rfl rfl, ?_, rfl⟩
  intro q
  simp [Router.Has]

/-- As long as no automatic routing id is drawn that is in the table already, no assertion fails
in `identify_peer` and `xpipe_terminated`, and each pipe has its place. -/
theorem routed_of_reach {s : System Pipe} (h : Runs.Reach Initial Guard step s) : Routed s := by
  have hinv : Inv s := h.invariant (fun _ => inv_initial) fun _ _ _ hs hguard hstep =>
    hs.step hguard.1 hstep
  constructor
  · intro i hregisters hi
    exact hinv.total hregisters hi
  · intro p hp
    exact hinv.placed hp

/-- A peer without a routing id, two with the same one and a handover, and one that waits. -/
def mixedRun : List (Input Nat) :=
  [.attach 0 [{}], .attach 1 [{ data := [65] }], .attach 2 [], .deliver 2 [{ data := [65] }],
    .xsetsockopt (.handover true), .activateRead 2, .attach 3 [], .terminated 1]

theorem mixedRun_routed :
    ∃ s : System Nat, Runs.Reach Initial Guard step s ∧ s.pipes = [3, 2, 0] ∧
      s.router.anonymousPipes = [3] ∧ s.router.target [65] = some 2 ∧ Routed s := by
  obtain ⟨s, hreach, hs⟩ : ∃ s : System Nat, Runs.Reach Initial Guard step s ∧
      s.pipes = [3, 2, 0] ∧ s.router.anonymousPipes = [3] ∧ s.router.target [65] = some 2 := by
    refine Runs.Reach.of_exec (s := { router := { nextIntegralRoutingId := 7 } }) Guard step
      mixedRun ?_ ⟨7, false, false, false, false, false, rfl⟩
    decide +kernel
  exact ⟨s, hreach, hs.1, hs.2.1, hs.2.2, routed_of_reach hreach⟩

/-- A peer has chosen the next automatic routing id when another one without a routing id comes;
the assertion that the id is not in the table fails. -/
theorem automatic_id_taken :
    ∃ s : System Nat, Runs.Reach Initial Allowed step s ∧ Allowed s (.attach 1 [{}]) ∧
      (step s (.attach 1 [{}])).isNone = true := by
  refine Runs.Reach.of_exec (s := { router := { nextIntegralRoutingId := 7 } }) Allowed step
    [.attach 0 [{ data := [0, 0, 0, 0, 7] }]] ?_ ⟨7, false, false, false, false, false, rfl⟩
  decide +kernel

end Uzmq.Routers
