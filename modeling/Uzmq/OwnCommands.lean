import Uzmq.OwnFamilies

/-!
# Commands of an ownership tree

The books of all objects are kept by every command that is processed.
-/

namespace Uzmq.Owns

open Function List

variable {Object Thread : Type} [LinearOrder Object]

structure Inv (s : System Object Thread) (asked : Object → List Object) : Prop where
  counts : Counts s.objects s.outstanding
  family : Family s.objects s.adopting asked
  mail : Mail s.objects s.thread s.network (kids s.objects s.adopting asked) asked
  freed : ∀ x, x ∈ s.freed ↔ (s.objects x).life = .freed
  once : s.freed.Nodup

/-- Children of one object go from one list to another while a command is received or sent. -/
theorem Inv.revise {s t : System Object Thread} {asked asked' : Object → List Object} {x : Object}
    {new : Own Object} (h : Inv s asked) (hobjects : t.objects = update s.objects x new)
    (hthread : t.thread = s.thread) (hfreed : t.freed = s.freed) (hsame : Same s.objects t.objects)
    (hcounts : Counts (update s.objects x new) t.outstanding)
    (hothers : ∀ q, q ≠ x → t.adopting q = s.adopting q ∧ asked' q = asked q)
    (hkids : (t.adopting x ++ new.owned ++ asked' x).Perm
      (s.adopting x ++ (s.objects x).owned ++ asked x))
    (hacks : new.termAcks = (asked' x).length)
    (hcleared : (s.objects x).terminating = true → new.owned = [])
    (hwaiting : ∀ y, y ∈ t.adopting x ∨ y ∈ new.owned → y ∈ s.adopting x ∨ y ∈ (s.objects x).owned)
    (hasking : ∀ y ∈ asked x, y ∈ asked' x)
    (hmail : Mail t.objects t.thread s.network (kids t.objects t.adopting asked') asked' →
      Mail t.objects t.thread t.network (kids t.objects t.adopting asked') asked') :
    Inv t asked' := by
  have hself : t.objects x = new := by rw [hobjects, update_self]
  have hother (q : Object) (hq : q ≠ x) : t.objects q = s.objects q := by
    rw [hobjects, update_of_ne hq]
  have hkids' (q : Object) : (kids t.objects t.adopting asked' q).Perm
      (kids s.objects s.adopting asked q) := by
    unfold kids
    rcases eq_or_ne q x with rfl | hq
    · rwa [hself]
    · rw [hother q hq, (hothers q hq).1, (hothers q hq).2]
  have hasking' (q y : Object) (hy : y ∈ asked q) : y ∈ asked' q := by
    rcases eq_or_ne q x with rfl | hq
    · exact hasking y hy
    · rwa [(hothers q hq).2]
  refine ⟨hobjects ▸ hcounts, h.family.moved hsame (fun q => (hkids' q).subperm)
    (fun q y hy => .inl ((hkids' q).mem_iff.mpr hy)) ?_ ?_ ?_ fun q y hy _ => hasking' q y hy,
    hmail ?_, ?_, ?_⟩
  · intro q
    rcases eq_or_ne q x with rfl | hq
    · rwa [hself]
    · rw [hother q hq, (hothers q hq).2]
      exact h.family.acks q
  · intro q hq
    rcases eq_or_ne q x with rfl | hqx
    · rw [hself]
      exact hcleared hq
    · rw [hother q hqx]
      exact h.family.cleared q hq
  · intro q y hy
    rcases eq_or_ne q x with rfl | hq
    · rw [hself] at hy
      exact hwaiting y hy
    · rwa [hother q hq, (hothers q hq).1] at hy
  · rw [hthread]
    refine h.mail.change (fun y _ => ⟨hsame.life y, hsame.terminating y⟩) (fun y _ => hsame.life y)
      (fun p y hy _ => ⟨p, hasking' p y hy⟩) ?_ ?_
    · intro y p hy
      rwa [hsame.owner]
    · intro l _ y _ z _ hz
      exact (hkids' _).mem_iff.mpr hz
  · intro y
    rw [hfreed, hsame.life]
    exact h.freed y
  · rw [hfreed]
    exact h.once

theorem Inv.replace {s : System Object Thread} {asked : Object → List Object} {x : Object}
    {new : Own Object} {freed : List Object} (h : Inv s asked)
    (howned : new.owned = (s.objects x).owned)
    (howner : ∀ p, (s.objects x).owner = some p → new.owner = some p)
    (hterm : x ∈ termed s.network →
      new.life = (s.objects x).life ∧ new.terminating = (s.objects x).terminating)
    (hack : x ∈ ackers s.network → new.life = (s.objects x).life)
    (hcounts : Counts (update s.objects x new) s.outstanding)
    (hfamily : Family (update s.objects x new) s.adopting asked)
    (hfreed : ∀ y, y ∈ freed ↔ if y = x then new.life = .freed else y ∈ s.freed)
    (hnodup : freed.Nodup) : Inv { s.setObject x new with freed := freed } asked := by
  have hkids :
      kids (update s.objects x new) s.adopting asked = kids s.objects s.adopting asked := by
    funext q
    exact congrArg (_ ++ · ++ _) (update_same s.objects x new (·.owned) howned q)
  refine ⟨hcounts, hfamily, ?_, ?_, hnodup⟩
  · change Mail _ _ _ (kids (update s.objects x new) s.adopting asked) _
    rw [hkids]
    refine h.mail.change ?_ ?_ (fun p _ hy _ => ⟨p, hy⟩) ?_ fun _ _ _ _ _ _ hz => hz
    · exact (forall_update_iff s.objects fun y new => y ∈ termed s.network →
        new.life = (s.objects y).life ∧ new.terminating = (s.objects y).terminating).mpr
          ⟨hterm, fun _ _ _ => ⟨rfl, rfl⟩⟩
    · exact (forall_update_iff s.objects fun y new => y ∈ ackers s.network →
        new.life = (s.objects y).life).mpr ⟨hack, fun _ _ _ => rfl⟩
    · exact (forall_update_iff s.objects fun y new => ∀ p, (s.objects y).owner = some p →
        new.owner = some p).mpr ⟨howner, fun _ _ _ hp => hp⟩
  · intro y
    refine (hfreed y).trans ?_
    change _ ↔ (Function.update s.objects x new y).life = .freed
    rw [update_apply]
    split
    · exact Iff.rfl
    · exact h.freed y

section Commands
variable {s : System Object Thread} {asked : Object → List Object} {x y p : Object}
  {k : Packet Object Thread} {rest : List (Packet Object Thread)} {c : Command Object}

section
variable (s : System Object Thread)

theorem outstanding_send (a b : Object) (c : Command Object) : (s.send a b c).outstanding x =
      s.outstanding x + if b = x ∧ c.isCounted = true then 1 else 0 := by
  simp [System.outstanding, System.send, countP_append, countP_cons, Nat.add_assoc]

theorem adopting_send (a b : Object) (hc : ∀ y, c ≠ .own y) :
    (s.send a b c).adopting = s.adopting := by
  funext q
  unfold System.adopting System.send
  cases c with
  | own y => exact absurd rfl (hc y)
  | _ => simp

theorem adopting_send_own (a b : Object) (q : Object) :
    (s.send a b (.own y)).adopting q = s.adopting q ++ if b = q then [y] else [] := by
  unfold System.adopting System.send
  by_cases hq : b = q <;> simp [hq]

end

theorem adopting_of_outstanding (h : s.outstanding x = 0) : s.adopting x = [] := by
  refine filterMap_eq_nil_iff.mpr ?_
  intro k hk
  have hzero := (Nat.add_eq_zero_iff.mp h).2
  have hnot := countP_eq_zero.mp hzero k hk
  cases hcommand : k.command with
  | own y =>
    refine if_neg fun hdestination => hnot ?_
    simp [hdestination, hcommand, Command.isCounted]
  | _ => rfl

theorem Inv.front [DecidableEq Thread] (h : Inv s asked) {sender receiver : Thread}
    (htake : Lanes.takeFirst (fun k => k.sender = sender ∧ k.receiver = receiver) s.network =
      some (k, rest)) : Inv { s with network := k :: rest } asked := by
  have hperm := Lanes.takeFirst_perm htake
  have hout (x : Object) : { s with network := k :: rest }.outstanding x = s.outstanding x := by
    unfold System.outstanding
    rw [hperm.countP_eq]
  have hadopting (q : Object) :
      ({ s with network := k :: rest }.adopting q).Perm (s.adopting q) :=
    (hperm.filterMap _).symm
  have hkids (q : Object) : (kids s.objects { s with network := k :: rest }.adopting asked q).Perm
      (kids s.objects s.adopting asked q) :=
    ((hadopting q).append_right _).append_right _
  refine ⟨h.counts.same hout, ?_, ?_, h.freed, h.once⟩
  · refine h.family.moved ⟨fun _ => rfl, fun _ => rfl, fun _ => rfl⟩ (fun q => (hkids q).subperm)
      (fun q y hy => .inl ((hkids q).mem_iff.mpr hy)) h.family.acks h.family.cleared ?_
      fun _ _ hy _ => hy
    intro q y hy
    exact hy.imp_left (hadopting q).mem_iff.mp
  · refine (h.mail.front htake).change (fun _ _ => ⟨rfl, rfl⟩) (fun _ _ => rfl)
      (fun p _ hx _ => ⟨p, hx⟩) (fun _ _ hx => hx) ?_
    intro l _ y _ x _ hx
    exact (hkids _).mem_iff.mpr hx

/-- An object that is done is deallocated and acknowledges. -/
theorem Inv.checkTermAcks (h : Inv s asked) (hx : (s.objects x).life ≠ .freed) :
    ∃ t, s.checkTermAcks x = some t ∧ Inv t asked := by
  unfold System.checkTermAcks
  dsimp only
  split
  · rename_i hdone
    simp only [Bool.and_eq_true, beq_iff_eq] at hdone
    obtain ⟨⟨hterminating, hseqnum⟩, hacks⟩ := hdone
    have hout : s.outstanding x = 0 := h.counts.none_left hseqnum
    have howned := h.family.cleared x hterminating
    have hasked : asked x = [] := length_eq_zero_iff.mp ((h.family.acks x).symm.trans hacks)
    have hkids : kids s.objects s.adopting asked x = [] := by
      rw [kids, adopting_of_outstanding hout, howned, hasked]
      rfl
    have hstarted : (s.objects x).life = .started := by
      cases hlife : (s.objects x).life with
      | unborn => cases (h.family.young x (.inl hlife)).2.symm.trans hterminating
      | constructed => cases (h.family.young x (.inr hlife)).2.symm.trans hterminating
      | started => rfl
      | freed => exact absurd hlife hx
    have hnot : x ∉ ackers s.network := fun hin => hx (h.mail.acks x hin).1
    have hself : (s.processDestroy x).objects x = { s.objects x with life := .freed } :=
      update_self ..
    have hinv : Inv (s.processDestroy x) asked := by
      refine h.replace rfl (fun _ hp => hp) ?_ (fun hin => absurd hin hnot) ?_
        (h.family.destroyed hterminating hkids) ?_ ?_
      · intro hin
        cases (h.mail.terms x hin).2.1.symm.trans hterminating
      · exact h.counts.update (fun _ _ => rfl) (h.counts.seqnum x) (h.counts.bounded x)
          fun _ => hout
      · intro y
        rw [mem_append, mem_singleton]
        by_cases hy : y = x <;> simp [hy]
      · refine nodup_append'.mpr ⟨h.once, nodup_singleton x, ?_⟩
        rw [disjoint_singleton]
        exact fun hin => hx ((h.freed x).mp hin)
    rw [if_neg (by rw [howned]; exact fun hne => hne rfl)]
    split
    · exact ⟨_, rfl, hinv⟩
    rename_i p howner
    refine ⟨(s.processDestroy x).send x p .termAck, rfl, ?_⟩
    have hin : x ∈ asked p := h.family.asking x p hterminating howner hstarted
    refine ⟨?_, ?_, ?_, hinv.freed, hinv.once⟩
    · refine hinv.counts.same fun y => ?_
      rw [outstanding_send]
      simp [Command.isCounted]
    · rw [adopting_send _ _ _ (by simp)]
      exact hinv.family
    rw [adopting_send _ _ _ (by simp)]
    refine hinv.mail.append (by simp [termed]) ?_ ?_ (by simp)
    · intro y hy
      obtain rfl : y = x := by simpa [ackers] using hy
      exact ⟨hnot, by rw [hself], p, hin⟩
    · exact fun _ => ⟨x, rfl, rfl, rfl, by rw [hself]; exact howner⟩
  · exact ⟨s, rfl, h⟩

section
variable (s : System Object Thread)

theorem outstanding_cons (k : Packet Object Thread)
    (rest : List (Packet Object Thread)) (y : Object) :
    { s with network := k :: rest }.outstanding y = { s with network := rest }.outstanding y +
      if k.destination = y ∧ k.command.isCounted = true then 1 else 0 := by
  simp [System.outstanding, countP_cons, Nat.add_assoc]

theorem adopting_cons (rest : List (Packet Object Thread)) (hk : ∀ y, k.command ≠ .own y) :
    { s with network := k :: rest }.adopting = { s with network := rest }.adopting := by
  funext q
  unfold System.adopting
  cases hcommand : k.command with
  | own y => exact absurd hcommand (hk y)
  | _ => simp [hcommand]

theorem adopting_cons_own (rest : List (Packet Object Thread)) (hk : k.command = .own y)
    (q : Object) : { s with network := k :: rest }.adopting q =
      (if k.destination = q then [y] else []) ++ { s with network := rest }.adopting q := by
  unfold System.adopting
  by_cases hq : k.destination = q <;> simp [hk, hq]

end

section
variable (h : Inv { s with network := k :: rest } asked)
include h

theorem Inv.counted (new : Own Object) (hk : k.command.isCounted = true)
    (hsent : new.sentSeqnum = (s.objects k.destination).sentSeqnum)
    (hprocessed : new.processedSeqnum = (s.objects k.destination).processedSeqnum + 1)
    (hlife : new.life = (s.objects k.destination).life) :
    Counts (update s.objects k.destination new) { s with network := rest }.outstanding := by
  have hat := outstanding_cons s k rest k.destination
  rw [if_pos ⟨rfl, hk⟩] at hat
  have hbounded := h.counts.bounded k.destination
  refine h.counts.update ?_ ?_ (by omega) ?_
  · intro y hy
    rw [outstanding_cons, if_neg fun hboth => hy hboth.1.symm, Nat.add_zero]
  · have hseqnum := h.counts.seqnum k.destination
    rw [hsent, hprocessed, UInt64.toNat_add, UInt64.toNat_one]
    dsimp only at hseqnum
    omega
  · intro hidle
    rw [hlife] at hidle
    have hzero := h.counts.idle k.destination hidle
    omega

theorem Inv.counted_life (hk : k.command.isCounted = true) :
    (s.objects k.destination).life ≠ .freed := by
  intro hfreed
  have hidle := h.counts.idle k.destination (.inr hfreed)
  rw [outstanding_cons, if_pos ⟨rfl, hk⟩] at hidle
  omega

theorem Inv.processSeqnum (hk : k.command = .plug ∨ k.command = .counted) :
    ∃ t, { s with network := rest }.processSeqnum k.destination = some t ∧ Inv t asked := by
  have hcounted : k.command.isCounted = true := by
    rcases hk with hk | hk <;> rw [hk] <;> rfl
  have hother (y : Object) : k.command ≠ .own y := by
    rcases hk with hk | hk <;> rw [hk] <;> exact nofun
  have hadopting := adopting_cons s rest hother
  refine Inv.checkTermAcks ?_ ?_
  · refine h.revise rfl rfl rfl (.update _ rfl rfl rfl) (h.counted _ hcounted rfl rfl rfl) ?_ ?_
      (h.family.acks _) (h.family.cleared _) ?_ (fun _ hy => hy) Mail.tail
    · exact fun q _ => ⟨(congrFun hadopting q).symm, rfl⟩
    · rw [hadopting]
      exact List.Perm.refl _
    · intro y hy
      rwa [hadopting]
  · change (update s.objects _ _ _).life ≠ .freed
    rw [update_self]
    exact h.counted_life hcounted

end

omit [LinearOrder Object] in
theorem Family.room_for {o : Object → Own Object} {adopting asked : Object → List Object}
    (h : Family o adopting asked) {count : Nat}
    (hcount : count ≤ (adopting p).length + (o p).owned.length) :
    (o p).termAcks + count < intBound := by
  have hroom := h.room p
  simp only [kids, length_append] at hroom
  rw [h.acks p]
  omega

theorem Inv.processOwn (h : Inv { s with network := k :: rest } asked) (hk : k.command = .own y)
    (hterminating : (s.objects k.destination).terminating = false) :
    ∃ t, ({ s with network := rest }.processOwn k.destination y).bind
      (·.processSeqnum k.destination) = some t ∧ Inv t asked := by
  let x := k.destination
  have hcounted : k.command.isCounted = true := by
    rw [hk]
    rfl
  have hadopting := adopting_cons_own s rest hk
  have hat := hadopting x
  rw [if_pos rfl] at hat
  have hnot : y ∉ (s.objects x).owned := by
    have hnodup := h.family.nodup x
    have hdisjoint := (nodup_append'.mp (nodup_append'.mp hnodup).1).2.2
    refine fun howned => hdisjoint ?_ howned
    rw [hat]
    exact mem_cons_self
  let new : Own Object := { s.objects x with
      owned := insertOwned y (s.objects x).owned
      processedSeqnum := (s.objects x).processedSeqnum + 1 }
  have hinsert : new.owned.Perm (y :: (s.objects x).owned) := by
    rw [show new.owned = (s.objects x).owned.orderedInsert (· ≤ ·) y from if_neg hnot]
    exact perm_orderedInsert _ y _
  have hstep : ({ s with network := rest }.processOwn x y).bind
      (·.processSeqnum x) = ({ s with network := rest }.setObject x new).checkTermAcks x := by
    simp [x, new, System.processOwn, hterminating, System.processSeqnum, System.setObject]
  rw [hstep]
  refine Inv.checkTermAcks ?_ ?_
  · refine h.revise rfl rfl rfl (.update _ rfl rfl rfl) (h.counted _ hcounted rfl rfl rfl) ?_ ?_
      (h.family.acks x) ?_ ?_ (fun _ hy => hy) Mail.tail
    · intro q hq
      rw [hadopting, if_neg (Ne.symm hq)]
      exact ⟨rfl, rfl⟩
    · rw [hat]
      exact ((hinsert.append_left _).trans perm_middle).append_right _
    · intro htrue
      cases hterminating.symm.trans htrue
    · intro z hz
      rw [hat]
      rcases hz with hz | hz
      · exact .inl (mem_cons_of_mem y hz)
      · rcases mem_cons.mp (hinsert.mem_iff.mp hz) with rfl | hz
        · exact .inl mem_cons_self
        · exact .inr hz
  · change (update s.objects x new x).life ≠ .freed
    rw [update_self]
    exact h.counted_life hcounted

theorem Inv.asks {t : System Object Thread} {new : Own Object} (h : Inv s asked) (linger : Int)
    (ys : List Object) {network : List (Packet Object Thread)}
    (hobjects : t.objects = update s.objects x new) (hthread : t.thread = s.thread)
    (hfreed : t.freed = s.freed) (hsame : Same s.objects t.objects)
    (hnetwork : t.network = network ++ ys.map (termPacket s.thread x linger))
    (hsub : network.Sublist s.network)
    (hcounts : Counts (update s.objects x new) t.outstanding)
    (hothers : ∀ q, q ≠ x → t.adopting q = s.adopting q)
    (hlists : (t.adopting x ++ new.owned ++ ys).Perm (s.adopting x ++ (s.objects x).owned))
    (hacks : new.termAcks = (s.objects x).termAcks + ys.length)
    (hcleared : (s.objects x).terminating = true → new.owned = []) :
    Inv t (update asked x (ys ++ asked x)) := by
  have hmem {y : Object} (hy : y ∈ t.adopting x ++ new.owned ++ ys) :
      y ∈ s.adopting x ∨ y ∈ (s.objects x).owned :=
    mem_append.mp (hlists.mem_iff.mp hy)
  have hnodup : ys.Nodup := by
    have hold := (nodup_append'.mp (h.family.nodup x)).1
    exact (nodup_append'.mp (hlists.nodup_iff.mpr hold)).2.1
  refine h.revise hobjects hthread hfreed hsame hcounts
    (fun q hq => ⟨hothers q hq, update_of_ne hq _ _⟩) ?_ ?_ hcleared ?_ ?_ ?_
  · rw [update_self, ← append_assoc]
    exact hlists.append_right _
  · rw [update_self, length_append, hacks, h.family.acks x, Nat.add_comm]
  · exact fun y hy => hmem (mem_append_left _ (mem_append.mpr hy))
  · intro y hy
    rw [update_self]
    exact mem_append_right _ hy
  · intro hmail
    rw [hnetwork, ← hthread]
    refine (hmail.sublist hsub).ask linger hnodup ?_
    intro y hy
    obtain ⟨hnot, hstarted, hfalse⟩ := h.family.to_ask h.mail (hmem (mem_append_right _ hy))
    refine ⟨fun hin => hnot ((hsub.filterMap _).subset hin), (hsame.life y).trans hstarted,
      (hsame.terminating y).trans hfalse, x, ?_⟩
    rw [update_self]
    exact mem_append_left _ hy

theorem Inv.processOwn_terminating (h : Inv { s with network := k :: rest } asked)
    (hk : k.command = .own y) (hterminating : (s.objects k.destination).terminating = true) :
    ∃ t asked', ({ s with network := rest }.processOwn k.destination y).bind
      (·.processSeqnum k.destination) = some t ∧ Inv t asked' := by
  let x := k.destination
  have hcounted : k.command.isCounted = true := by
    rw [hk]
    rfl
  have hadopting := adopting_cons_own s rest hk
  have hroom : (s.objects x).termAcks + 1 < intBound := by
    refine h.family.room_for ?_
    rw [hadopting, if_pos rfl, length_append, length_singleton]
    omega
  let new : Own Object := { s.objects x with
      termAcks := (s.objects x).termAcks + 1
      processedSeqnum := (s.objects x).processedSeqnum + 1 }
  let u := ({ s with network := rest }.setObject x new).send x y (.term 0)
  have hstep : ({ s with network := rest }.processOwn x y).bind (·.processSeqnum x) =
      u.checkTermAcks x := by
    simp [u, x, new, System.processOwn, hterminating, System.registerTermAcks, hroom,
      System.processSeqnum, System.setObject, System.send]
  have hsent : u.adopting = { s with network := rest }.adopting := adopting_send _ _ _ nofun
  have hinv : Inv u (update asked x ([y] ++ asked x)) := by
    refine h.asks 0 [y] rfl rfl rfl (.update _ rfl rfl rfl) rfl (sublist_cons_self k rest) ?_ ?_ ?_
      rfl (h.family.cleared x)
    · refine (h.counted new hcounted rfl rfl rfl).same fun z => ?_
      rw [outstanding_send, if_neg fun hboth => nomatch hboth.2]
      rfl
    · intro q hq
      rw [hsent, hadopting, if_neg (Ne.symm hq)]
      rfl
    · rw [hsent, hadopting, if_pos rfl]
      exact perm_append_comm
  rw [hstep]
  obtain ⟨t, ht, hinv'⟩ := hinv.checkTermAcks (x := x) (by
    change (update s.objects x new x).life ≠ .freed
    rw [update_self]
    exact h.counted_life hcounted)
  exact ⟨t, _, ht, hinv'⟩

theorem Inv.processTermReq (h : Inv s asked) (x y : Object) :
    ∃ t asked', s.processTermReq x y = some t ∧ Inv t asked' := by
  unfold System.processTermReq
  dsimp only
  split
  · exact ⟨s, asked, rfl, h⟩
  split
  · exact ⟨s, asked, rfl, h⟩
  rename_i hterminating howned
  have hin : y ∈ (s.objects x).owned := not_not.mp howned
  have hroom : (s.objects x).termAcks + 1 < intBound := by
    refine h.family.room_for ?_
    have hpos := length_pos_of_mem hin
    omega
  let new : Own Object := { s.objects x with
      owned := (s.objects x).owned.erase y, termAcks := (s.objects x).termAcks + 1 }
  have hstep : ((s.setObject x { s.objects x with
      owned := (s.objects x).owned.erase y }).registerTermAcks x 1).map
        (·.send x y (.term (s.linger x))) =
          some ((s.setObject x new).send x y (.term (s.linger x))) := by
    simp [new, System.registerTermAcks, hroom, System.setObject]
  have hsent : ((s.setObject x new).send x y (.term (s.linger x))).adopting = s.adopting :=
    adopting_send _ _ _ nofun
  refine ⟨_, _, hstep, h.asks (s.linger x) [y] rfl rfl rfl (.update _ rfl rfl rfl) rfl
    (List.Sublist.refl _) ?_ (fun _ _ => by rw [hsent]) ?_ rfl
    fun htrue => absurd htrue hterminating⟩
  · refine (h.counts.kept x new rfl rfl rfl).same fun z => ?_
    rw [outstanding_send, if_neg fun hboth => nomatch hboth.2]
    rfl
  · rw [hsent, append_assoc]
    refine List.Perm.append_left _ ?_
    exact perm_append_comm.trans (perm_cons_erase hin).symm

section
variable (s : System Object Thread)

omit [LinearOrder Object] in
theorem foldl_send (x : Object) (linger : Int) (ys : List Object) :
    ys.foldl (fun s y => s.send x y (.term linger)) s =
      { s with network := s.network ++ ys.map (termPacket s.thread x linger) } := by
  induction ys generalizing s with
  | nil => simp
  | cons y ys ih =>
    rw [foldl_cons, ih]
    simp [System.send, termPacket]

theorem outstanding_terms (x : Object) (linger : Int) (ys : List Object) (z : Object) :
    { s with network := s.network ++ ys.map (termPacket s.thread x linger) }.outstanding z =
      s.outstanding z := by
  simp [System.outstanding, countP_append, countP_map, comp_def, termPacket, Command.isCounted]

theorem adopting_terms (x : Object) (linger : Int) (ys : List Object) :
    { s with network := s.network ++ ys.map (termPacket s.thread x linger) }.adopting =
      s.adopting := by
  funext q
  simp [System.adopting, filterMap_append, filterMap_map, comp_def, termPacket]

end

theorem Inv.processTerm (h : Inv s asked) (hstarted : (s.objects x).life = .started)
    (hterminating : (s.objects x).terminating = false) (hnot : x ∉ termed s.network)
    (hasked : ∀ p, (s.objects x).owner = some p → x ∈ asked p) (linger : Int) :
    ∃ t asked', s.processTerm x linger = some t ∧ Inv t asked' := by
  have hroom : (s.objects x).termAcks + (s.objects x).owned.length < intBound :=
    h.family.room_for (Nat.le_add_left _ _)
  let new : Own Object := { s.objects x with
      termAcks := (s.objects x).termAcks + (s.objects x).owned.length, owned := [] }
  let u : System Object Thread := { s.setObject x new with
      network := s.network ++ (s.objects x).owned.map (termPacket s.thread x linger) }
  let asked' : Object → List Object := update asked x ((s.objects x).owned ++ asked x)
  have hself : u.objects x = new := update_self ..
  have hstep : s.processTerm x linger =
      (u.setObject x { u.objects x with terminating := true }).checkTermAcks x := by
    simp [u, new, System.processTerm, hterminating, foldl_send, System.registerTermAcks, hroom,
      System.setObject]
  have hadopting : u.adopting = s.adopting := adopting_terms s x linger _
  -- The children are asked first, and then the object terminates.
  have hinv : Inv u asked' := by
    refine h.asks linger (s.objects x).owned rfl rfl rfl (.update _ rfl rfl rfl) rfl
      (List.Sublist.refl _) ?_ (fun _ _ => by rw [hadopting]) ?_ rfl fun _ => rfl
    · exact (h.counts.kept x new rfl rfl rfl).same (outstanding_terms s x linger _)
    · rw [hadopting, append_nil]
  have hasked' (p : Object) (hp : (u.objects x).owner = some p) : x ∈ asked' p := by
    rw [hself] at hp
    dsimp only [asked']
    rcases eq_or_ne p x with rfl | hpx
    · rw [update_self]
      exact mem_append_right _ (hasked p hp)
    · rw [update_of_ne hpx]
      exact hasked p hp
  have howned : (u.objects x).owned = [] := by
    rw [hself]
  -- Its own children are other objects.
  have hnot' : x ∉ termed u.network := by
    intro hin
    unfold termed at hin
    rw [filterMap_append] at hin
    rcases mem_append.mp hin with hin | hin
    · exact hnot hin
    obtain ⟨k, hk, hsome⟩ := mem_filterMap.mp hin
    obtain ⟨y, hy, rfl⟩ := mem_map.mp hk
    obtain rfl : y = x := Option.some.inj hsome
    have howner := h.family.owner y y (mem_kids.mpr (.inr (.inl hy)))
    exact (h.family.not_waiting (hasked y howner) (q := y)).2 hy
  have hterm : Inv (u.setObject x { u.objects x with terminating := true }) asked' := by
    refine hinv.replace rfl (fun _ hp => hp) (fun hin => absurd hin hnot') (fun _ => rfl)
      (hinv.counts.kept x _ rfl rfl rfl) (hinv.family.terminated ?_ hasked' howned) ?_ hinv.once
    · rw [hself]
      exact hstarted
    · intro y
      split
      · rename_i hy
        rw [hy]
        exact hinv.freed x
      · exact Iff.rfl
  rw [hstep]
  obtain ⟨t, ht, hinv'⟩ := hterm.checkTermAcks (x := x) (by
    change (update u.objects x _ x).life ≠ .freed
    rw [update_self, hself]
    change (s.objects x).life ≠ .freed
    rw [hstarted]
    exact nofun)
  exact ⟨t, _, ht, hinv'⟩

theorem Inv.processTermAck (h : Inv { s with network := k :: rest } asked)
    (hk : k.command = .termAck) :
    ∃ t asked', { s with network := rest }.processTermAck k.destination = some t ∧
      Inv t asked' := by
  let x := k.destination
  obtain ⟨y, hsource, -, -, howner⟩ := h.mail.answers k mem_cons_self (by rw [hk]; rfl)
  have hackers : ackers (k :: rest) = y :: ackers rest := by
    unfold ackers
    rw [filterMap_cons]
    simp only [hk, hsource]
  obtain ⟨hfreed, p, hp⟩ := h.mail.acks y (by rw [hackers]; exact mem_cons_self)
  obtain rfl : p = x :=
    Option.some.inj ((h.family.of_asked hp).1.symm.trans howner)
  have hstarted := (h.family.of_asked hp).2
  have hpos : (s.objects x).termAcks ≠ 0 := by
    have hacks := h.family.acks x
    have hlength := length_pos_of_mem hp
    dsimp only at hacks
    omega
  let new : Own Object := { s.objects x with
      termAcks := (s.objects x).termAcks - 1 }
  have hstep : { s with network := rest }.processTermAck x =
      ({ s with network := rest }.setObject x new).checkTermAcks x := by
    exact if_neg hpos
  have hfields {α : Type} (f : Own Object → α) := update_same s.objects x new f
  have hkeep {q w : Object} (hne : w ≠ y) (hw : w ∈ asked q) :
      w ∈ update asked x ((asked x).erase y) q := by
    rcases eq_or_ne q x with rfl | hq
    · rw [update_self]
      exact (mem_erase_of_ne hne).mpr hw
    · rwa [update_of_ne hq]
  have hadopting : { s with network := k :: rest }.adopting = { s with network := rest }.adopting :=
    adopting_cons s rest (by rw [hk]; exact nofun)
  have hfamily : Family (update s.objects x new)
      { s with network := rest }.adopting
      (update asked x ((asked x).erase y)) := by
    have hold := h.family
    rw [hadopting] at hold
    exact hold.acked hp hfreed rfl rfl rfl rfl rfl
  have hinv : Inv ({ s with network := rest }.setObject x new)
      (update asked x ((asked x).erase y)) := by
    refine ⟨?_, hfamily, ?_, ?_, h.once⟩
    · refine (h.counts.kept x new rfl rfl rfl).same fun z => ?_
      rw [outstanding_cons, if_neg (by rw [hk]; exact fun hboth => nomatch hboth.2), Nat.add_zero]
      rfl
    · refine h.mail.tail.change ?_ ?_ ?_ ?_ ?_
      · exact fun z _ =>
          ⟨hfields (·.life) rfl z, hfields (·.terminating) rfl z⟩
      · exact fun z _ => hfields (·.life) rfl z
      · intro q z hz htransit
        have hne : z ≠ y := by
          rintro rfl
          rcases htransit with hin | hin
          · cases (h.mail.tail.terms z hin).1.symm.trans hfreed
          · have hnodup := h.mail.acksNodup
            rw [hackers] at hnodup
            exact (nodup_cons.mp hnodup).1 hin
        exact ⟨q, hkeep hne hz⟩
      · exact fun z q hz => (hfields (·.owner) rfl z).trans hz
      · intro l hl z hz w hw hin
        -- A request of this object would stand before its ack.
        have hne : w ≠ y := by
          rintro rfl
          have hbefore := (pairwise_cons.mp h.mail.order).1 l hl
          exact hbefore hk ⟨z, hz⟩ (hsource.trans hw.symm)
        rw [hadopting] at hin
        rcases mem_kids.mp hin with hin | hin | hin
        · exact mem_kids.mpr (.inl hin)
        · exact mem_kids.mpr (.inr (.inl (hfields (·.owned) rfl l.destination ▸ hin)))
        · exact mem_kids.mpr (.inr (.inr (hkeep hne hin)))
    · intro z
      exact (h.freed z).trans (Iff.of_eq (congrArg (· = Life.freed) (hfields (·.life) rfl z).symm))
  rw [hstep]
  obtain ⟨t, ht, hinv'⟩ := hinv.checkTermAcks (x := x) (by
    intro hgone
    cases hstarted.symm.trans ((hfields (·.life) rfl x).symm.trans hgone))
  exact ⟨t, _, ht, hinv'⟩

end Commands

end Uzmq.Owns
