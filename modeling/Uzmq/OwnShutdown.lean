import Uzmq.OwnCommands

/-!
# Shutting down ownership trees

Every step keeps the books of all objects, so that no assertion fails and commands find the object
they are sent to. `2 ^ 32` commands to come cannot be told from none.
-/

namespace Uzmq.Owns

open Function List

variable {Object Thread : Type} [LinearOrder Object] {life : Life} {k : Packet Object Thread}
  {rest : List (Packet Object Thread)} {n : Nat}

section Calls
variable {s : System Object Thread} {asked : Object → List Object} {x y p : Object}

section
variable (h : Inv s asked)
include h

theorem Inv.born (hx : (s.objects x).life = .unborn) (hlife : life ≠ .freed) :
    Inv (s.setObject x { life := life }) asked := by
  have hnone := h.family.alone x (by rw [hx]; exact nofun)
  have hidle := h.counts.idle x (.inl hx)
  refine h.replace (append_eq_nil_iff.mp (append_eq_nil_iff.mp hnone).1).2.symm ?_ ?_ ?_ ?_
    (h.family.born hx life) ?_ h.once
  · intro p hp
    cases (h.family.young x (.inl hx)).1.symm.trans hp
  · intro hin
    cases hx.symm.trans (h.mail.terms x hin).1
  · intro hin
    cases hx.symm.trans (h.mail.acks x hin).1
  · refine h.counts.update (fun _ _ => rfl) ?_ (h.counts.bounded x) fun _ => hidle
    rw [hidle]
    rfl
  · intro y
    split
    · rename_i hy
      rw [hy, h.freed, hx]
      exact iff_of_false nofun hlife
    · exact Iff.rfl

theorem Inv.incSeqnum (hx : s.allocated x = true) (hroom : s.outstanding x + 1 < 2 ^ 32) :
    Inv { s.incSeqnum x with owed := update s.owed x (s.owed x + 1) } asked := by
  let t := { s.incSeqnum x with owed := update s.owed x (s.owed x + 1) }
  have hat : t.outstanding x = s.outstanding x + 1 := by
    change update s.owed x (s.owed x + 1) x + _ = s.owed x + _ + 1
    rw [update_self]
    exact Nat.add_right_comm _ _ _
  refine h.revise rfl rfl rfl (.update _ rfl rfl rfl) ?_ (fun _ _ => ⟨rfl, rfl⟩) (List.Perm.refl _)
    (h.family.acks x) (h.family.cleared x) (fun _ hy => hy) (fun _ hy => hy) fun hmail => hmail
  refine h.counts.update ?_ ?_ (hat ▸ hroom) ?_
  · intro z hz
    change update s.owed x (s.owed x + 1) z + _ = s.owed z + _
    rw [update_of_ne hz]
    rfl
  · have hseqnum := h.counts.seqnum x
    change ((s.objects x).sentSeqnum + 1).toNat =
      ((s.objects x).processedSeqnum.toNat + t.outstanding x) % _
    rw [hat, UInt32.toNat_add, UInt32.toNat_one]
    omega
  · unfold System.allocated at hx
    rintro (hlife | hlife) <;> change (s.objects x).life = _ at hlife <;> rw [hlife] at hx <;>
      cases hx

theorem Inv.network {network : List (Packet Object Thread)} {owed : Object → Nat}
    (hout : ∀ z, { s with network := network, owed := owed }.outstanding z = s.outstanding z)
    (hadopting : { s with network := network, owed := owed }.adopting = s.adopting)
    (hmail : Mail s.objects s.thread network (kids s.objects s.adopting asked) asked) :
    Inv { s with network := network, owed := owed } asked := by
  refine ⟨h.counts.same hout, ?_, ?_, h.freed, h.once⟩
  · rw [hadopting]
    exact h.family
  · rw [hadopting]
    exact hmail

omit h in
theorem outstanding_sent (hx : 0 < s.owed x) (hk : k.command.isCounted = true)
    (hdestination : k.destination = x) (z : Object) :
    { s with
      network := s.network ++ [k], owed := update s.owed x (s.owed x - 1) }.outstanding z =
        s.outstanding z := by
  unfold System.outstanding
  rcases eq_or_ne z x with rfl | hz
  · simp [countP_append, hk, hdestination]
    omega
  · simp [countP_append, hdestination, hz, Ne.symm hz]

theorem Inv.sendCounted (hx : 0 < s.owed x) (hk : k.command = .plug ∨ k.command = .counted)
    (hdestination : k.destination = x) :
    Inv { s with
      network := s.network ++ [k], owed := update s.owed x (s.owed x - 1) } asked := by
  refine h.network (outstanding_sent hx ?_ hdestination) ?_ (h.mail.append_plain ?_ ?_)
  · rcases hk with hk | hk <;> rw [hk] <;> rfl
  · funext q
    rcases hk with hk | hk <;> simp [System.adopting, filterMap_append, hk]
  · rcases hk with hk | hk <;> rw [hk] <;> rfl
  · rcases hk with hk | hk <;> rw [hk] <;> rintro _ ⟨⟩

theorem Inv.sendTermReq (hstarted : (s.objects x).life = .started)
    (howner : (s.objects x).owner = some p) : Inv (s.send x p (.termReq x)) asked := by
  refine h.network ?_ (adopting_send s x p nofun) ?_
  · intro z
    refine (outstanding_send s x p (.termReq x)).trans ?_
    rw [if_neg (fun hboth => nomatch hboth.2), Nat.add_zero]
  refine h.mail.append (by simp [termed]) (by simp [ackers])
    (fun _ => ⟨x, rfl, rfl, rfl, howner⟩) ?_
  intro z _
  refine ⟨x, rfl, ?_, ?_⟩
  · rcases h.family.known p x howner with hin | hfreed
    · exact hin
    · cases hstarted.symm.trans hfreed
  · intro hin
    cases hstarted.symm.trans (h.mail.acks x hin).1

theorem Inv.terminate (hstarted : (s.objects x).life = .started) :
    ∃ t asked', s.terminate x = some t ∧ Inv t asked' := by
  unfold System.terminate
  dsimp only
  split
  · exact ⟨s, asked, rfl, h⟩
  rename_i hterminating
  split
  · rename_i howner
    refine h.processTerm hstarted (Bool.eq_false_iff.mpr hterminating) ?_ ?_ _
    · intro hin
      obtain ⟨-, -, q, hq⟩ := h.mail.terms x hin
      cases howner.symm.trans (h.family.of_asked hq).1
    · intro q hq
      cases howner.symm.trans hq
  · rename_i p howner
    exact ⟨_, asked, rfl, h.sendTermReq hstarted howner⟩

theorem Inv.adopt (hx : (s.objects x).life = .started) (hy : (s.objects y).life = .constructed)
    (howed : 0 < s.owed x) (hcharges : s.charges x + 1 < intBound) :
    Inv { (s.setObject y { s.objects y with life := .started, owner := some x }).send x x (.own y)
      with owed := update s.owed x (s.owed x - 1) } asked := by
  let new : Own Object := { s.objects y with life := .started, owner := some x }
  let t := { (s.setObject y new).send x x (.own y) with owed := update s.owed x (s.owed x - 1) }
  have hother (z : Object) (hz : z ≠ y) : t.objects z = s.objects z := update_of_ne hz _ _
  obtain ⟨hnone, -⟩ := h.family.young y (.inr hy)
  have hadopting (q : Object) : t.adopting q =
      if q = x then s.adopting q ++ [y] else s.adopting q := by
    refine (adopting_send_own (s.setObject y new) x x q).trans ?_
    by_cases hq : q = x
    · rw [if_pos hq, if_pos hq.symm]
      rfl
    · rw [if_neg hq, if_neg (Ne.symm hq), append_nil]
      rfl
  have hfields {α : Type} (f : Own Object → α) := update_same s.objects y new f
  have howned (q : Object) : (t.objects q).owned = (s.objects q).owned := hfields (·.owned) rfl q
  have hcounts : Counts t.objects s.outstanding := by
    refine h.counts.update (fun _ _ => rfl) (h.counts.seqnum y) (h.counts.bounded y) ?_
    rintro (hlife | hlife) <;> cases hlife
  refine ⟨hcounts.same (outstanding_sent howed rfl rfl), h.family.launch hx hy ?_ ?_ ?_
    (hfields (·.terminating) rfl) howned (hfields (·.termAcks) rfl) hadopting, ?_, ?_, h.once⟩
  · rw [kids, length_append, length_append, ← h.family.acks]
    exact hcharges
  · intro z
    rw [show t.objects z = _ from update_apply ..]
    split <;> rfl
  · intro z
    rw [show t.objects z = _ from update_apply ..]
    split <;> rfl
  · refine Mail.append_plain (h.mail.change ?_ ?_ (fun p _ hz _ => ⟨p, hz⟩) ?_ ?_) rfl
      (by simp)
    · intro z hz
      rw [hother z (by rintro rfl; cases hy.symm.trans (h.mail.terms z hz).1)]
      exact ⟨rfl, rfl⟩
    · intro z hz
      rw [hother z (by rintro rfl; cases hy.symm.trans (h.mail.acks z hz).1)]
    · intro z q hz
      rwa [hother z (by rintro rfl; cases hnone.symm.trans hz)]
    · intro l _ z _ w _ hw
      rw [mem_kids] at hw ⊢
      rw [hadopting, howned]
      refine hw.imp_left fun hw => ?_
      split
      · exact mem_append_left _ hw
      · exact hw
  · intro z
    rcases eq_or_ne z y with rfl | hz
    · refine (h.freed z).trans (iff_of_false ?_ ?_)
      · rw [hy]
        rintro ⟨⟩
      · rw [show t.objects z = new from update_self ..]
        rintro ⟨⟩
    · rw [hother z hz]
      exact h.freed z

end

theorem Inv.launchChild (h : Inv s asked) (hx : (s.objects x).life = .started)
    (hy : (s.objects y).life = .constructed) (hroom : s.outstanding x + 1 < 2 ^ 32)
    (hroom' : s.outstanding y + 1 < 2 ^ 32) (hcharges : s.charges x + 1 < intBound) :
    ∃ t, s.launchChild x y = some t ∧ Inv t asked := by
  have hne : x ≠ y := by
    rintro rfl
    cases hx.symm.trans hy
  obtain ⟨hnone, -⟩ := h.family.young y (.inr hy)
  -- Both commands are counted before they are sent, and the owner is set at last.
  let u := s.sendPlug x y
  have hplug : Inv u asked := by
    have hinc := h.incSeqnum (x := y) (by unfold System.allocated; rw [hy]; rfl) hroom'
    have hsent := hinc.sendCounted (k := ⟨some x, s.thread x, s.thread y, y, .plug⟩) (x := y)
      (by simp) (.inl rfl) rfl
    simpa [u, System.sendPlug, System.send, System.incSeqnum, System.setObject] using hsent
  have hux : u.objects x = s.objects x := update_of_ne hne _ _
  have hout : u.outstanding x = s.outstanding x := by
    refine (outstanding_send (s.incSeqnum y) x y .plug).trans ?_
    rw [if_neg fun hboth => hne hboth.1.symm]
    rfl
  let v := { u.incSeqnum x with owed := update u.owed x (u.owed x + 1) }
  have hinc : Inv v asked :=
    hplug.incSeqnum (by unfold System.allocated; rw [hux, hx]; rfl) (hout ▸ hroom)
  have hvx : v.objects x = { s.objects x with sentSeqnum := (s.objects x).sentSeqnum + 1 } := by
    rw [← hux]
    exact update_self ..
  have hvy : v.objects y = { s.objects y with sentSeqnum := (s.objects y).sentSeqnum + 1 } :=
    (update_of_ne (Ne.symm hne) _ _).trans (update_self ..)
  have hcharged : v.charges x = s.charges x := by
    have hadopting : v.adopting = s.adopting := adopting_send (s.incSeqnum y) x y (by simp)
    rw [System.charges, hadopting, hvx]
    rfl
  have hinv := hinc.adopt (x := x) (y := y) (by rw [hvx]; exact hx) (by rw [hvy]; exact hy)
    (by simp [v]) (hcharged ▸ hcharges)
  refine ⟨_, ?_, hinv⟩
  simp [System.launchChild, System.setOwner, hnone, v, u, System.sendPlug, System.sendOwn,
    System.send, System.incSeqnum, System.setObject, hne, Ne.symm hne, update_comm]

end Calls

section Steps
variable {s : System Object Thread} {asked : Object → List Object}

theorem Inv.destination (h : Inv s asked) (hk : k ∈ s.network) :
    s.allocated k.destination = true := by
  have hlives (hcounted : k.command.isCounted = true) : s.allocated k.destination = true := by
    have hpos :
        0 < s.network.countP fun l => l.destination = k.destination && l.command.isCounted :=
      countP_pos_iff.mpr ⟨k, hk, by simp [hcounted]⟩
    have hout : s.outstanding k.destination ≠ 0 := by
      unfold System.outstanding
      omega
    unfold System.allocated
    cases hlife : (s.objects k.destination).life with
    | unborn => exact absurd (h.counts.idle _ (.inl hlife)) hout
    | constructed | started => rfl
    | freed => exact absurd (h.counts.idle _ (.inr hlife)) hout
  have hstarted (hlife : (s.objects k.destination).life = .started) :
      s.allocated k.destination = true := by
    unfold System.allocated
    rw [hlife]
    rfl
  cases hcommand : k.command with
  | plug | own | counted => exact hlives (by rw [hcommand]; rfl)
  | term linger =>
    have hin : k.destination ∈ termed s.network := by
      refine mem_filterMap.mpr ⟨k, hk, ?_⟩
      simp only [hcommand]
    exact hstarted (h.mail.terms _ hin).1
  | termReq y =>
    obtain ⟨x, -, hx⟩ := h.mail.requests k hk y hcommand
    refine hstarted ?_
    by_contra hlife
    rw [h.family.alone _ hlife] at hx
    cases hx
  | termAck =>
    obtain ⟨x, hsource, -, -, howner⟩ := h.mail.answers k hk (by rw [hcommand]; rfl)
    obtain ⟨-, p, hp⟩ := h.mail.acks x (mem_ackers hk hcommand hsource)
    obtain ⟨howner', hlife⟩ := h.family.of_asked hp
    obtain rfl : p = k.destination := Option.some.inj (howner'.symm.trans howner)
    exact hstarted hlife

theorem Inv.drop (h : Inv { s with network := k :: rest } asked)
    (hk : k.command.isCounted = false) : Inv { s with network := rest } asked := by
  have hsame := adopting_cons s rest (k := k) (by rintro y hy; rw [hy] at hk; cases hk)
  refine ⟨?_, hsame ▸ h.family, hsame ▸ h.mail.tail, h.freed, h.once⟩
  refine h.counts.same fun z => ?_
  rw [outstanding_cons, if_neg (by rw [hk]; exact fun hboth => nomatch hboth.2), Nat.add_zero]

theorem Inv.processCommand (h : Inv { s with network := k :: rest } asked) :
    ∃ t asked', { s with network := rest }.processCommand k.destination k.command = some t ∧
      Inv t asked' := by
  cases hcommand : k.command with
  | plug =>
    obtain ⟨t, ht, hinv⟩ := h.processSeqnum (.inl hcommand)
    exact ⟨t, asked, ht, hinv⟩
  | own y =>
    cases hterminating : (s.objects k.destination).terminating with
    | false =>
      obtain ⟨t, ht, hinv⟩ := h.processOwn hcommand hterminating
      exact ⟨t, asked, ht, hinv⟩
    | true => exact h.processOwn_terminating hcommand hterminating
  | termReq y => exact (h.drop (by rw [hcommand]; rfl)).processTermReq k.destination y
  | term linger =>
    have htermed : termed (k :: rest) = k.destination :: termed rest := by
      unfold termed
      rw [filterMap_cons]
      simp only [hcommand]
    obtain ⟨hstarted, hfalse, p, hp⟩ :=
      h.mail.terms k.destination (by rw [htermed]; exact mem_cons_self)
    refine (h.drop (by rw [hcommand]; rfl)).processTerm hstarted hfalse ?_ ?_ linger
    · have hnodup := h.mail.termsNodup
      rw [htermed] at hnodup
      exact (nodup_cons.mp hnodup).1
    · intro q hq
      obtain rfl : p = q := Option.some.inj ((h.family.of_asked hp).1.symm.trans hq)
      exact hp
  | termAck => exact h.processTermAck hcommand
  | counted =>
    obtain ⟨t, ht, hinv⟩ := h.processSeqnum (.inr hcommand)
    exact ⟨t, asked, ht, hinv⟩

theorem Inv.step [DecidableEq Thread] {i : Input Object Thread} (h : Inv s asked)
    (hguard : Guard s i) :
    ∃ t asked', Owns.step s i = some t ∧ Inv t asked' := by
  obtain ⟨hallowed, hfits⟩ := hguard
  cases i with
  | root | construct => exact ⟨_, asked, rfl, h.born hallowed nofun⟩
  | incSeqnum x => exact ⟨_, asked, rfl, h.incSeqnum hallowed hfits⟩
  | counted sender x => exact ⟨_, asked, rfl, h.sendCounted hallowed (.inr rfl) rfl⟩
  | launchChild x y =>
    obtain ⟨t, ht, hinv⟩ := h.launchChild hallowed.1 hallowed.2 hfits.1 hfits.2.1 hfits.2.2
    exact ⟨t, asked, ht, hinv⟩
  | terminate x => exact h.terminate hallowed
  | termChild x y => exact h.processTermReq x y
  | deliver sender receiver =>
    obtain ⟨k, hk, hlane⟩ := hallowed
    obtain ⟨l, rest, htake⟩ := Lanes.takeFirst_isSome
      (p := fun k : Packet Object Thread => k.sender = sender ∧ k.receiver = receiver)
      ⟨k, hk, by simpa using hlane⟩
    have hin : l ∈ s.network := (Lanes.takeFirst_perm htake).mem_iff.mpr mem_cons_self
    obtain ⟨t, asked', ht, hinv⟩ := (h.front htake).processCommand
    refine ⟨t, asked', ?_, hinv⟩
    change s.deliver sender receiver = some t
    unfold System.deliver
    simp only [htake, h.destination hin, if_true]
    exact ht

theorem inv_initial (h : Initial s) : Inv s fun _ => [] := by
  obtain ⟨thread, linger, rfl⟩ := h
  refine ⟨⟨fun _ => rfl, fun _ => (by decide : 0 < 2 ^ 32), fun _ _ => rfl⟩,
    ⟨fun _ => nodup_nil, nofun, nofun, fun _ => rfl, fun _ => (by decide : 0 < 2 ^ 31), nofun,
      fun _ _ => rfl, fun _ _ => ⟨rfl, rfl⟩, ?_, nofun⟩,
    ⟨nodup_nil, nofun, nodup_nil, nofun, nofun, nofun, List.Pairwise.nil⟩, ?_,
    nodup_nil⟩
  · rintro p x (hx | hx) <;> cases hx
  · intro x
    exact iff_of_false nofun nofun

theorem Inv.orderly [DecidableEq Thread] (h : Inv s asked) : Orderly s := by
  constructor
  · intro i hi
    obtain ⟨t, -, ht, -⟩ := h.step hi
    exact ⟨t, ht⟩
  · intro k hk
    exact h.destination hk
  · exact h.once
  · intro x hx y hy
    rw [h.freed] at hx ⊢
    rcases h.family.known x y hy with hin | hfreed
    · rw [h.family.alone x (by rw [hx]; exact nofun)] at hin
      cases hin
    · exact hfreed
  · intro x hx
    exact h.counts.idle x (.inr ((h.freed x).mp hx))

end Steps

variable [DecidableEq Thread]

/-- In every run in which fewer than `2 ^ 32` counted commands of an object are to come and fewer
than `2 ^ 31` of its children are known, shutting down is orderly. -/
theorem orderly_of_reach {s : System Object Thread} (h : Runs.Reach Initial Guard step s) :
    Orderly s := by
  have hinv : ∃ asked, Inv s asked := by
    refine h.invariant_of_progress (P := fun s => ∃ asked, Inv s asked) ?_ ?_
    · intro s hs
      exact ⟨_, inv_initial hs⟩
    · rintro s i ⟨asked, hinv⟩ hguard
      obtain ⟨t, asked', ht, hinv'⟩ := hinv.step hguard
      exact ⟨t, ht, asked', hinv'⟩
  obtain ⟨asked, hinv⟩ := hinv
  exact hinv.orderly

/-- An object with two children in another thread, one of which has a child. One asks to be
terminated while the root is terminated, and the last one arrives at an owner that terminates. -/
def treeRun : List (Input Nat Nat) :=
  [.root 0, .construct 1, .incSeqnum 1, .launchChild 0 1, .counted 0 1, .construct 3,
    .launchChild 0 3, .deliver 0 1, .construct 2, .launchChild 1 2, .deliver 0 0, .terminate 1,
    .terminate 0, .deliver 0 1, .deliver 0 1, .deliver 0 1, .deliver 1 0, .deliver 0 0,
    .deliver 1 1, .deliver 0 1, .deliver 1 1, .deliver 1 1, .deliver 1 1, .deliver 1 0,
    .deliver 1 0]

theorem treeRun_orderly :
    ∃ s : System Nat Nat, Runs.Reach Initial Guard step s ∧ s.freed = [3, 2, 1, 0] ∧ Orderly s := by
  refine Runs.Reach.of_exec_right (s := { thread := fun x => if x = 0 then 0 else 1
                                          linger := fun _ => 0 }) Guard step treeRun ?_ ⟨_, _, rfl⟩
    fun s hs => orderly_of_reach hs
  decide +kernel

/-- A root that is told of commands which are still to be sent. -/
def counting (n : Nat) : System Nat Nat where
  thread := fun _ => 0
  linger := fun _ => 0
  objects := update (fun _ => {}) 0 { life := .started, sentSeqnum := UInt32.ofNat n }
  owed := update (fun _ => 0) 0 n

theorem counting_reached (n : Nat) : Runs.Reach Initial Allowed step (counting n) := by
  induction n with
  | zero =>
    refine .next (.start ⟨fun _ => 0, fun _ => 0, rfl⟩) (i := .root 0) rfl ?_
    simp [step, System.setObject, counting]
  | succ n ih =>
    refine ih.next (i := .incSeqnum 0) rfl ?_
    simp [step, System.incSeqnum, System.setObject, counting]

/-- The root is deallocated at once if the counter is 0. -/
theorem terminate_counting (hn : UInt32.ofNat n = 0) :
    ∃ s, step (counting n) (.terminate 0) = some s ∧ s.freed = [0] ∧ s.outstanding 0 = n := by
  simp [step, System.terminate, counting, System.processTerm, System.registerTermAcks, intBound,
    System.checkTermAcks, System.setObject, System.processDestroy, System.outstanding, hn]

/-- A root with children in another thread that have not been plugged in. -/
def parent (n : Nat) : System Nat Nat where
  thread := fun x => if x = 0 then 0 else 1
  linger := fun _ => 0
  objects := fun x =>
    if x = 0 then
      { life := .started, sentSeqnum := UInt32.ofNat n, processedSeqnum := UInt64.ofNat n
        owned := List.range' 1 n }
    else if x ≤ n then { life := .started, owner := some 0, sentSeqnum := 1 }
    else {}
  network := (List.range' 1 n).map fun x => ⟨some 0, 0, 1, x, .plug⟩

/-- One more child was launched and is on its way. -/
def launching (n : Nat) : System Nat Nat :=
  { parent (n + 1) with
    objects := update (parent (n + 1)).objects 0
      { life := .started, sentSeqnum := UInt32.ofNat (n + 1), processedSeqnum := UInt64.ofNat n
        owned := List.range' 1 n }
    network := (parent (n + 1)).network ++ [⟨some 0, 0, 0, 0, .own (n + 1)⟩] }

theorem insertOwned_last {x : Object} {owned : List Object} (h : ∀ y ∈ owned, y < x) :
    insertOwned x owned = owned ++ [x] := by
  rw [insertOwned, if_neg fun hin => lt_irrefl x (h x hin)]
  induction owned with
  | nil => rfl
  | cons y owned ih =>
    have hy : ¬ x ≤ y := not_le.mpr (h y mem_cons_self)
    rw [orderedInsert_of_not_le _ _ hy, ih fun z hz => h z (mem_cons_of_mem y hz)]
    rfl

theorem range'_grows (n : Nat) : List.range' 1 (n + 1) = List.range' 1 n ++ [n + 1] := by
  rw [List.range'_concat, Nat.one_mul, Nat.add_comm 1 n]

theorem launch_parent (n : Nat) :
    step ((parent n).setObject (n + 1) { life := .constructed }) (.launchChild 0 (n + 1)) =
      some (launching n) := by
  have hset : ((parent n).setObject (n + 1) { life := .constructed }).setOwner (n + 1) 0 =
      some (((parent n).setObject (n + 1) { life := .constructed }).setObject (n + 1)
        { life := .started, owner := some 0 }) := by
    simp [System.setOwner, System.setObject]
  change (System.setOwner _ (n + 1) 0).map _ = _
  rw [hset]
  refine congrArg some (System.ext rfl rfl ?_ ?_ rfl rfl)
  · funext x
    rcases Nat.eq_zero_or_pos x with rfl | hx
    · simp [System.sendPlug, System.sendOwn, System.send, System.incSeqnum, System.setObject,
        launching, parent]
    have hne : x ≠ 0 := by omega
    by_cases hlast : x = n + 1
    · subst hlast
      simp [System.sendPlug, System.sendOwn, System.send, System.incSeqnum, System.setObject,
        launching, parent]
    · have hle : x ≤ n ↔ x ≤ n + 1 := by omega
      simp [System.sendPlug, System.sendOwn, System.send, System.incSeqnum, System.setObject,
        launching, parent, hne, hlast, hle]
  · simp [System.sendPlug, System.sendOwn, System.send, System.incSeqnum, System.setObject,
      launching, parent, range'_grows]

theorem deliver_launching (n : Nat) :
    step (launching n) (.deliver 0 0) = some (parent (n + 1)) := by
  have htake : Lanes.takeFirst (fun k : Packet Nat Nat => k.sender = 0 ∧ k.receiver = 0)
      (launching n).network = some (⟨some 0, 0, 0, 0, .own (n + 1)⟩, (parent (n + 1)).network) := by
    refine Lanes.takeFirst_append ?_ rfl
    intro k hk
    obtain ⟨x, -, rfl⟩ := mem_map.mp hk
    rfl
  have hinsert : insertOwned (n + 1) (List.range' 1 n) = List.range' 1 (n + 1) := by
    rw [range'_grows]
    refine insertOwned_last fun y hy => ?_
    have hrange := mem_range'_1.mp hy
    omega
  have hprocess : { launching n with network := (parent (n + 1)).network }.processCommand 0
      (.own (n + 1)) = some (parent (n + 1)) := by
    have hone : UInt64.ofNat n + 1 = UInt64.ofNat (n + 1) := by
      rw [UInt64.ofNat_add]
      rfl
    simp only [System.processCommand, System.processOwn, System.processSeqnum,
      System.checkTermAcks, System.setObject, launching, update_self, update_idem,
      Bool.false_eq_true, Bool.false_and, if_false, Option.bind_some, hinsert, hone]
    refine congrArg some (System.ext rfl rfl ?_ rfl rfl rfl)
    funext x
    rcases eq_or_ne x 0 with rfl | hx
    · simp [parent]
    · simp [hx]
  change (launching n).deliver 0 0 = _
  unfold System.deliver
  rw [htake]
  dsimp only
  rw [hprocess]
  exact if_pos rfl

theorem parent_reached (n : Nat) : Runs.Reach Initial Allowed step (parent n) := by
  induction n with
  | zero =>
    refine .next (.start ⟨fun x => if x = 0 then 0 else 1, fun _ => 0, rfl⟩) (i := .root 0) rfl ?_
    refine congrArg some (System.ext rfl rfl ?_ rfl rfl rfl)
    funext x
    rcases Nat.eq_zero_or_pos x with rfl | hx
    · simp [System.setObject, parent]
    · have hne : x ≠ 0 := by omega
      simp [System.setObject, parent, hne]
  | succ n ih =>
    have hconstruct : Runs.Reach Initial Allowed step
        ((parent n).setObject (n + 1) { life := .constructed }) := by
      refine ih.next (i := .construct (n + 1)) ?_ rfl
      have hnot : ¬ n + 1 ≤ n := by omega
      simp [Allowed, parent, hnot]
    refine (hconstruct.next ?_ (launch_parent n)).next ?_ (deliver_launching n)
    · simp [Allowed, parent, System.setObject]
    · exact ⟨_, mem_append_right _ mem_cons_self, rfl, rfl⟩

theorem terminate_parent (hn : intBound ≤ n) : step (parent n) (.terminate 0) = none := by
  have hnot : ¬ n < intBound := by omega
  simp [step, System.terminate, parent, System.processTerm, System.registerTermAcks, foldl_send,
    hnot]

/-- After `2 ^ 32` calls of `inc_seqnum` the counter is 0 again, and the object is deallocated
before any of the commands has come; and `2 ^ 31` children are too many for `term_acks`. -/
theorem counters_overflow :
    (∃ s : System Nat Nat, Runs.Reach Initial Allowed step s ∧ s.freed = [0] ∧
      s.outstanding 0 = 2 ^ 32 ∧ ¬ Orderly s) ∧
    ∃ s : System Nat Nat, Runs.Reach Initial Allowed step s ∧ Guard s (.terminate 0) ∧
      step s (.terminate 0) = none ∧ ¬ Orderly s := by
  constructor
  · obtain ⟨s, hs, hfreed, hout⟩ := terminate_counting (n := 2 ^ 32) rfl
    refine ⟨s, ?_, hfreed, hout, ?_⟩
    · exact (counting_reached (2 ^ 32)).next (i := .terminate 0)
        (show Allowed (counting (2 ^ 32)) (.terminate 0) from rfl) hs
    · intro horderly
      have hprocessed := horderly.processed 0 (by rw [hfreed]; exact mem_cons_self)
      rw [hout] at hprocessed
      cases hprocessed
  · have hfails := terminate_parent (Nat.le_refl intBound)
    have hguard : Guard (parent intBound) (.terminate 0) := ⟨rfl, trivial⟩
    refine ⟨parent intBound, parent_reached intBound, hguard, hfails, ?_⟩
    intro horderly
    obtain ⟨t, ht⟩ := horderly.total _ hguard
    cases hfails.symm.trans ht

end Uzmq.Owns
