import Uzmq.Owns

/-!
# The books of an ownership tree

Seen from its owner a child is on its way, owned, or asked to terminate, until its ack has been
received. An object that is asked for the second time, acknowledged twice or deallocated before
its children would be in two of these lists. `sent_seqnum` tells how many counted commands are
still to come as long as there are fewer than `2 ^ 32`.

`term_req` is not counted. It is sent by an object that has not acknowledged, and stands before
its `term_ack`, since both go to the owner.
-/

namespace Uzmq.Owns

open Function List

variable {Object Thread : Type} [LinearOrder Object]

/-- A field stays if an object is replaced by one that agrees in it. -/
theorem update_same (o : Object → Own Object) (x : Object) (new : Own Object) {α : Type}
    (f : Own Object → α) (hf : f new = f (o x)) (y : Object) :
    f (Function.update o x new y) = f (o y) := by
  rcases eq_or_ne y x with rfl | hy
  · rw [update_self, hf]
  · rw [update_of_ne hy]

/-- The lives and the tree stay as they are. -/
structure Same (o o' : Object → Own Object) : Prop where
  life : ∀ y, (o' y).life = (o y).life
  owner : ∀ y, (o' y).owner = (o y).owner
  terminating : ∀ y, (o' y).terminating = (o y).terminating

theorem Same.update (o : Object → Own Object) {x : Object} {new : Own Object}
    (hlife : new.life = (o x).life) (howner : new.owner = (o x).owner)
    (hterminating : new.terminating = (o x).terminating) : Same o (Function.update o x new) :=
  ⟨update_same o x new (·.life) hlife, update_same o x new (·.owner) howner,
    update_same o x new (·.terminating) hterminating⟩

section Counts
variable {o o' : Object → Own Object} {out out' : Object → Nat} {x : Object}

/-- `sent_seqnum` and `processed_seqnum` differ by the commands to come. -/
structure Counts (o : Object → Own Object) (out : Object → Nat) : Prop where
  seqnum : ∀ x, (o x).sentSeqnum.toNat = ((o x).processedSeqnum.toNat + out x) % 2 ^ 32
  bounded : ∀ x, out x < 2 ^ 32
  idle : ∀ x, (o x).life = .unborn ∨ (o x).life = .freed → out x = 0

section
variable (h : Counts o out)
include h

omit [LinearOrder Object] in
theorem Counts.none_left (heq : (o x).processedSeqnum = (o x).sentSeqnum.toUInt64) : out x = 0 := by
  have hseqnum := h.seqnum x
  have hbounded := h.bounded x
  have hsame : (o x).processedSeqnum.toNat = (o x).sentSeqnum.toNat := by
    rw [heq, UInt32.toNat_toUInt64]
  omega

omit [LinearOrder Object] in
theorem Counts.same (hout : ∀ y, out' y = out y) : Counts o out' := by
  rwa [funext hout]

theorem Counts.update {new : Own Object} (hother : ∀ y, y ≠ x → out' y = out y)
    (hseqnum : new.sentSeqnum.toNat = (new.processedSeqnum.toNat + out' x) % 2 ^ 32)
    (hbounded : out' x < 2 ^ 32) (hidle : new.life = .unborn ∨ new.life = .freed → out' x = 0) :
    Counts (Function.update o x new) out' := by
  constructor
  · intro y
    rcases eq_or_ne y x with rfl | hy
    · rwa [update_self]
    · rw [update_of_ne hy, hother y hy]
      exact h.seqnum y
  · intro y
    rcases eq_or_ne y x with rfl | hy
    · exact hbounded
    · rw [hother y hy]
      exact h.bounded y
  · intro y
    rcases eq_or_ne y x with rfl | hy
    · rwa [update_self]
    · rw [update_of_ne hy, hother y hy]
      exact h.idle y

theorem Counts.kept (x : Object) (new : Own Object) (hsent : new.sentSeqnum = (o x).sentSeqnum)
    (hprocessed : new.processedSeqnum = (o x).processedSeqnum) (hlife : new.life = (o x).life) :
    Counts (Function.update o x new) out := by
  refine h.update (fun _ _ => rfl) ?_ (h.bounded x) ?_
  · rw [hsent, hprocessed]
    exact h.seqnum x
  · rw [hlife]
    exact h.idle x

end

end Counts

section Families
variable {o o' : Object → Own Object} {adopting adopting' asked asked' : Object → List Object}
  {p x : Object}

/-- The children of an object whose ack is still to come. -/
def kids (o : Object → Own Object) (adopting asked : Object → List Object) (p : Object) :
    List Object :=
  adopting p ++ (o p).owned ++ asked p

/-- Each child is in one list of its owner, until it is gone. -/
structure Family (o : Object → Own Object) (adopting asked : Object → List Object) : Prop where
  nodup : ∀ p, (kids o adopting asked p).Nodup
  owner : ∀ p, ∀ x ∈ kids o adopting asked p, (o x).owner = some p
  known : ∀ p x, (o x).owner = some p → x ∈ kids o adopting asked p ∨ (o x).life = .freed
  acks : ∀ p, (o p).termAcks = (asked p).length
  room : ∀ p, (kids o adopting asked p).length < intBound
  cleared : ∀ p, (o p).terminating = true → (o p).owned = []
  alone : ∀ p, (o p).life ≠ .started → kids o adopting asked p = []
  young : ∀ x, (o x).life = .unborn ∨ (o x).life = .constructed →
    (o x).owner = none ∧ (o x).terminating = false
  waiting : ∀ p x, x ∈ adopting p ∨ x ∈ (o p).owned →
    (o x).life = .started ∧ (o x).terminating = false
  asking : ∀ x p, (o x).terminating = true → (o x).owner = some p → (o x).life = .started →
    x ∈ asked p

section
omit [LinearOrder Object]

theorem mem_kids : x ∈ kids o adopting asked p ↔
    x ∈ adopting p ∨ x ∈ (o p).owned ∨ x ∈ asked p := by
  simp [kids]

section
variable (h : Family o adopting asked)
include h

theorem Family.of_asked (hx : x ∈ asked p) : (o x).owner = some p ∧ (o p).life = .started := by
  have hin : x ∈ kids o adopting asked p := mem_kids.mpr (.inr (.inr hx))
  refine ⟨h.owner p x hin, ?_⟩
  by_contra hlife
  rw [h.alone p hlife] at hin
  cases hin

/-- A child that is asked to terminate is not waited for otherwise. -/
theorem Family.not_waiting (hx : x ∈ asked p) {q : Object} : x ∉ adopting q ∧ x ∉ (o q).owned := by
  have howner := (h.of_asked hx).1
  have hnodup := h.nodup p
  have hdisjoint := (nodup_append'.mp hnodup).2.2
  constructor
  · intro hin
    obtain rfl : q = p := by
      have hq := h.owner q x (mem_kids.mpr (.inl hin))
      exact Option.some.inj (hq.symm.trans howner)
    exact hdisjoint (mem_append_left _ hin) hx
  · intro hin
    obtain rfl : q = p := by
      have hq := h.owner q x (mem_kids.mpr (.inr (.inl hin)))
      exact Option.some.inj (hq.symm.trans howner)
    exact hdisjoint (mem_append_right _ hin) hx

theorem Family.moved (hsame : Same o o')
    (hsub : ∀ q, (kids o' adopting' asked' q).Subperm (kids o adopting asked q))
    (hkept : ∀ q, ∀ y ∈ kids o adopting asked q,
      y ∈ kids o' adopting' asked' q ∨ (o y).life = .freed)
    (hacks : ∀ q, (o' q).termAcks = (asked' q).length)
    (hcleared : ∀ q, (o q).terminating = true → (o' q).owned = [])
    (hwaiting : ∀ q y, y ∈ adopting' q ∨ y ∈ (o' q).owned → y ∈ adopting q ∨ y ∈ (o q).owned)
    (hasking : ∀ q, ∀ y ∈ asked q, (o y).life = .started → y ∈ asked' q) :
    Family o' adopting' asked' := by
  constructor
  · intro q
    obtain ⟨l, hperm, hsublist⟩ := hsub q
    exact hperm.nodup_iff.mp (hsublist.nodup (h.nodup q))
  · intro q y hy
    rw [hsame.owner]
    exact h.owner q y ((hsub q).subset hy)
  · intro q y hy
    rw [hsame.owner] at hy
    rw [hsame.life]
    exact (h.known q y hy).elim (hkept q y) .inr
  · exact hacks
  · intro q
    exact Nat.lt_of_le_of_lt (hsub q).length_le (h.room q)
  · intro q hq
    rw [hsame.terminating] at hq
    exact hcleared q hq
  · intro q hq
    rw [hsame.life] at hq
    have hnil := hsub q
    rw [h.alone q hq] at hnil
    exact subperm_nil.mp hnil
  · intro y hy
    rw [hsame.life] at hy
    rw [hsame.owner, hsame.terminating]
    exact h.young y hy
  · intro q y hy
    rw [hsame.life, hsame.terminating]
    exact h.waiting q y (hwaiting q y hy)
  · intro y q hy hq hstarted
    rw [hsame.terminating] at hy
    rw [hsame.owner] at hq
    rw [hsame.life] at hstarted
    exact hasking q y (h.asking y q hy hq hstarted) hstarted

end

end

section
variable (h : Family o adopting asked)
include h

theorem Family.launch (hp : (o p).life = .started) (hx : (o x).life = .constructed)
    (hroom : (kids o adopting asked p).length + 1 < intBound)
    (hlife : ∀ y, (o' y).life = if y = x then .started else (o y).life)
    (howner : ∀ y, (o' y).owner = if y = x then some p else (o y).owner)
    (hterminating : ∀ y, (o' y).terminating = (o y).terminating)
    (howned : ∀ y, (o' y).owned = (o y).owned) (hacks : ∀ y, (o' y).termAcks = (o y).termAcks)
    (hadopting : ∀ q, adopting' q = if q = p then adopting q ++ [x] else adopting q) :
    Family o' adopting' asked := by
  obtain ⟨hnone, hfalse⟩ := h.young x (.inr hx)
  have hnew (q : Object) : x ∉ kids o adopting asked q := by
    intro hin
    cases hnone.symm.trans (h.owner q x hin)
  have hkids (q : Object) : (kids o' adopting' asked q).Perm
      (if q = p then x :: kids o adopting asked q else kids o adopting asked q) := by
    unfold kids
    rw [hadopting, howned]
    split
    · simp only [append_assoc, singleton_append]
      exact perm_middle
    · exact List.Perm.refl _
  have hne : p ≠ x := by
    rintro rfl
    cases hp.symm.trans hx
  have hmem (q y : Object) : y ∈ kids o' adopting' asked q ↔
      y ∈ kids o adopting asked q ∨ q = p ∧ y = x := by
    rw [(hkids q).mem_iff]
    split
    · rename_i hq
      simp [hq, or_comm]
    · rename_i hq
      simp [hq]
  constructor
  · intro q
    rw [(hkids q).nodup_iff]
    split
    · exact nodup_cons.mpr ⟨hnew q, h.nodup q⟩
    · exact h.nodup q
  · intro q y hy
    rw [howner]
    rcases (hmem q y).mp hy with hin | ⟨rfl, rfl⟩
    · rw [if_neg (by rintro rfl; exact hnew q hin)]
      exact h.owner q y hin
    · rw [if_pos rfl]
  · intro q y hy
    rw [howner] at hy
    rw [hmem, hlife]
    by_cases hyx : y = x
    · rw [if_pos hyx] at hy
      cases hy
      exact .inl (.inr ⟨rfl, hyx⟩)
    · rw [if_neg hyx] at hy ⊢
      exact (h.known q y hy).imp_left .inl
  · intro q
    rw [hacks]
    exact h.acks q
  · intro q
    rw [(hkids q).length_eq]
    split
    · rename_i hq
      rw [hq, length_cons]
      exact hroom
    · exact h.room q
  · intro q hq
    rw [hterminating] at hq
    rw [howned]
    exact h.cleared q hq
  · intro q hq
    rw [hlife] at hq
    have hqp : q ≠ p := by
      rintro rfl
      rw [if_neg hne] at hq
      exact hq hp
    have hold : kids o adopting asked q = [] := by
      by_cases hqx : q = x
      · refine h.alone q ?_
        rw [hqx, hx]
        exact nofun
      · rw [if_neg hqx] at hq
        exact h.alone q hq
    have hperm := hkids q
    rw [if_neg hqp, hold] at hperm
    exact hperm.eq_nil
  · intro y hy
    rw [hlife] at hy
    have hyx : y ≠ x := by
      rintro rfl
      rw [if_pos rfl] at hy
      rcases hy with hy | hy <;> cases hy
    rw [if_neg hyx] at hy
    rw [howner, if_neg hyx, hterminating]
    exact h.young y hy
  · intro q y hy
    rw [hlife, hterminating]
    by_cases hyx : y = x
    · rw [if_pos hyx, hyx]
      exact ⟨rfl, hfalse⟩
    rw [if_neg hyx]
    refine h.waiting q y ?_
    rw [howned, hadopting] at hy
    refine hy.imp_left fun hin => ?_
    split at hin
    · rcases mem_append.mp hin with hin | hin
      · exact hin
      · exact absurd (mem_singleton.mp hin) hyx
    · exact hin
  · intro y q hy hq hstarted
    rw [hterminating] at hy
    have hyx : y ≠ x := by
      rintro rfl
      cases hfalse.symm.trans hy
    rw [howner, if_neg hyx] at hq
    rw [hlife, if_neg hyx] at hstarted
    exact h.asking y q hy hq hstarted

theorem Family.acked {new : Own Object} (hx : x ∈ asked p) (hfreed : (o x).life = .freed)
    (hlife : new.life = (o p).life) (howner : new.owner = (o p).owner)
    (hterminating : new.terminating = (o p).terminating) (howned : new.owned = (o p).owned)
    (hacks : new.termAcks = (o p).termAcks - 1) :
    Family (Function.update o p new) adopting (Function.update asked p ((asked p).erase x)) := by
  have howned' := update_same o p new (·.owned) howned
  have hasked (q : Object) : (update asked p ((asked p).erase x) q).Sublist (asked q) := by
    rcases eq_or_ne q p with rfl | hq
    · rw [update_self]
      exact erase_sublist
    · rw [update_of_ne hq]
  -- Only this child leaves the list.
  have hleft (q y : Object) (hy : y ∈ asked q) (hyx : y ≠ x) :
      y ∈ update asked p ((asked p).erase x) q := by
    rcases eq_or_ne q p with rfl | hq
    · rw [update_self]
      exact (mem_erase_of_ne hyx).mpr hy
    · rwa [update_of_ne hq]
  refine h.moved (.update o hlife howner hterminating) ?_ ?_ ?_ ?_ ?_ ?_
  · intro q
    unfold kids
    rw [howned']
    exact ((List.Sublist.refl _).append (hasked q)).subperm
  · intro q y hy
    rcases eq_or_ne y x with rfl | hyx
    · exact .inr hfreed
    · left
      rw [mem_kids, howned']
      exact (mem_kids.mp hy).imp_right (Or.imp_right fun hin => hleft q y hin hyx)
  · intro q
    rcases eq_or_ne q p with rfl | hq
    · rw [update_self, update_self, length_erase_of_mem hx, hacks, h.acks q]
    · rw [update_of_ne hq, update_of_ne hq, h.acks q]
  · intro q hq
    rw [howned']
    exact h.cleared q hq
  · intro q y hy
    rwa [howned'] at hy
  · intro q y hy hstarted
    refine hleft q y hy ?_
    rintro rfl
    cases hstarted.symm.trans hfreed

/-- One object changes, but not its children or its owner. What the books say of the other
objects stays; what they say of this one is to be shown. -/
theorem Family.update {new : Own Object} (howned : new.owned = (o x).owned)
    (hacks : new.termAcks = (o x).termAcks) (howner : new.owner = (o x).owner)
    (hknown : (o x).life = .freed → new.life = .freed)
    (hcleared : new.terminating = true → (o x).owned = [])
    (halone : new.life ≠ .started → kids o adopting asked x = [])
    (hyoung : new.life = .unborn ∨ new.life = .constructed →
      new.owner = none ∧ new.terminating = false)
    (hwaiting : ∀ q, x ∈ adopting q ∨ x ∈ (o q).owned →
      new.life = .started ∧ new.terminating = false)
    (hasking : ∀ p, new.terminating = true → (o x).owner = some p → new.life = .started →
      x ∈ asked p) : Family (Function.update o x new) adopting asked := by
  have howner' := update_same o x new (·.owner) howner
  have howned' := update_same o x new (·.owned) howned
  have hkids (q : Object) :
      kids (Function.update o x new) adopting asked q = kids o adopting asked q := by
    rw [kids, howned', kids]
  -- The books of `y` hold after the change if they hold for `x` and held for the others.
  have hat (P : Object → Own Object → Prop) (hx : P x new) (hold : ∀ y, P y (o y)) (y : Object) :
      P y (Function.update o x new y) := by
    by_cases hy : y = x
    · rw [hy, Function.update_self]
      exact hx
    · rw [Function.update_of_ne hy]
      exact hold y
  constructor
  case nodup => simpa only [hkids] using h.nodup
  case owner => simpa only [hkids, howner'] using h.owner
  case known =>
    intro q
    simp only [hkids]
    exact hat (fun y new => new.owner = some q → y ∈ kids o adopting asked q ∨ new.life = .freed)
      (fun hq => (h.known q x (howner.symm.trans hq)).imp_right hknown) (h.known q)
  case acks => exact hat (fun y new => new.termAcks = _) (hacks.trans (h.acks x)) h.acks
  case room => simpa only [hkids] using h.room
  case cleared =>
    exact hat (fun _ new => new.terminating = true → new.owned = [])
      (fun hx => howned.trans (hcleared hx)) h.cleared
  case alone =>
    simp only [hkids]
    exact hat (fun y new => new.life ≠ .started → kids o adopting asked y = []) halone h.alone
  case young =>
    exact hat (fun _ new => new.life = .unborn ∨ new.life = .constructed →
      new.owner = none ∧ new.terminating = false) hyoung h.young
  case waiting =>
    intro q
    rw [howned']
    exact hat (fun y new => y ∈ adopting q ∨ y ∈ (o q).owned →
      new.life = .started ∧ new.terminating = false) (hwaiting q) (h.waiting q)
  case asking =>
    refine hat (fun y new => ∀ p, new.terminating = true → new.owner = some p →
      new.life = .started → y ∈ asked p) ?_ h.asking
    intro p hx hp
    exact hasking p hx (howner.symm.trans hp)

theorem Family.terminated (hstarted : (o x).life = .started)
    (hasked : ∀ p, (o x).owner = some p → x ∈ asked p) (hnone : (o x).owned = []) :
    Family (Function.update o x { o x with terminating := true }) adopting asked := by
  refine h.update rfl rfl rfl id (fun _ => hnone) (h.alone x) ?_ ?_ (fun p _ hp _ => hasked p hp)
  · rw [hstarted]
    rintro (hlife | hlife) <;> cases hlife
  · intro q hy
    have hin : x ∈ kids o adopting asked q := mem_kids.mpr (hy.imp_right .inl)
    obtain ⟨hadopting, howned⟩ := h.not_waiting (hasked q (h.owner q x hin)) (q := q)
    exact (hy.elim hadopting howned).elim

theorem Family.destroyed (hterminating : (o x).terminating = true)
    (hnone : kids o adopting asked x = []) :
    Family (Function.update o x { o x with life := .freed }) adopting asked := by
  refine h.update rfl rfl rfl (fun _ => rfl) (h.cleared x) (fun _ => hnone) ?_ ?_
    fun _ _ _ => nofun
  · rintro (hlife | hlife) <;> cases hlife
  · intro q hy
    cases (h.waiting q x hy).2.symm.trans hterminating

theorem Family.born (hx : (o x).life = .unborn) (life : Life) :
    Family (Function.update o x { life := life }) adopting asked := by
  have hnone := h.alone x (by rw [hx]; exact nofun)
  obtain ⟨hleft, hasked⟩ := append_eq_nil_iff.mp hnone
  obtain ⟨-, howned⟩ := append_eq_nil_iff.mp hleft
  have howner := (h.young x (.inl hx)).1
  refine h.update howned.symm ?_ howner.symm ?_ nofun (fun _ => hnone) (fun _ => ⟨rfl, rfl⟩)
    ?_ nofun
  · rw [h.acks x, hasked]
    rfl
  · intro hfreed
    cases hx.symm.trans hfreed
  · intro q hy
    -- Nobody knows the object.
    cases howner.symm.trans (h.owner q x (mem_kids.mpr (hy.imp_right .inl)))

end

end Families

section Mails
variable {o o' : Object → Own Object} {thread : Object → Thread}
  {network rest : List (Packet Object Thread)} {known known' asked asked' : Object → List Object}
  {k : Packet Object Thread} {p x : Object}

/-- The objects to which `term` is in transit. -/
def termed (network : List (Packet Object Thread)) : List Object :=
  network.filterMap fun k =>
    match k.command with
    | .term _ => some k.destination
    | _ => none

/-- The objects whose `term_ack` is in transit. -/
def ackers (network : List (Packet Object Thread)) : List Object :=
  network.filterMap fun k =>
    match k.command with
    | .termAck => k.source
    | _ => none

/-- The commands that go to the owner. -/
def Command.isAnswer : Command Object → Bool
  | .termReq _ => true
  | .termAck => true
  | _ => false

/-- After its ack an object requests nothing. -/
def Before (k l : Packet Object Thread) : Prop :=
  k.command = .termAck → (∃ y, l.command = .termReq y) → k.source ≠ l.source

structure Mail (o : Object → Own Object) (thread : Object → Thread)
    (network : List (Packet Object Thread)) (known asked : Object → List Object) : Prop where
  termsNodup : (termed network).Nodup
  terms : ∀ x ∈ termed network, (o x).life = .started ∧ (o x).terminating = false ∧ ∃ p, x ∈ asked p
  acksNodup : (ackers network).Nodup
  acks : ∀ x ∈ ackers network, (o x).life = .freed ∧ ∃ p, x ∈ asked p
  answers : ∀ k ∈ network, k.command.isAnswer = true → ∃ x, k.source = some x ∧
    k.sender = thread x ∧ k.receiver = thread k.destination ∧ (o x).owner = some k.destination
  requests : ∀ k ∈ network, ∀ y, k.command = .termReq y →
    ∃ x, k.source = some x ∧ x ∈ known k.destination
  order : network.Pairwise Before

section
omit [LinearOrder Object]

theorem mem_ackers (hk : k ∈ network) (hcommand : k.command = .termAck)
    (hsource : k.source = some x) : x ∈ ackers network := by
  refine mem_filterMap.mpr ⟨k, hk, ?_⟩
  simp only [hcommand]
  exact hsource

section
variable (h : Mail o thread network known asked)
include h

theorem Mail.sub (hsub : rest.Subperm network) (horder : rest.Pairwise Before) :
    Mail o thread rest known asked := by
  obtain ⟨l, hperm, hsublist⟩ := hsub
  have hnodup {f : Packet Object Thread → Option Object} (hf : (network.filterMap f).Nodup) :
      (rest.filterMap f).Nodup :=
    (hperm.filterMap f).nodup_iff.mp ((hsublist.filterMap f).nodup hf)
  have hmem {f : Packet Object Thread → Option Object} (x : Object) (hx : x ∈ rest.filterMap f) :
      x ∈ network.filterMap f :=
    (hsublist.filterMap f).subset ((hperm.filterMap f).mem_iff.mpr hx)
  have hin (k : Packet Object Thread) (hk : k ∈ rest) : k ∈ network :=
    hsublist.subset (hperm.mem_iff.mpr hk)
  exact ⟨hnodup h.termsNodup, fun x hx => h.terms x (hmem x hx), hnodup h.acksNodup,
    fun x hx => h.acks x (hmem x hx), fun k hk => h.answers k (hin k hk),
    fun k hk => h.requests k (hin k hk), horder⟩

theorem Mail.front [DecidableEq Thread] {sender receiver : Thread}
    (htake : Lanes.takeFirst (fun k => k.sender = sender ∧ k.receiver = receiver) network =
      some (k, rest)) : Mail o thread (k :: rest) known asked := by
  have hperm := Lanes.takeFirst_perm htake
  refine h.sub hperm.symm.subperm (Lanes.takeFirst_pairwise htake h.order ?_)
  -- Both commands of one object to its owner are in the same lane.
  intro l hl hlane hack hrequest hsource
  obtain ⟨y, hy⟩ := hrequest
  obtain ⟨x, hx, hsender, hreceiver, howner⟩ := h.answers k (hperm.mem_iff.mpr mem_cons_self)
    (by rw [hack]; rfl)
  obtain ⟨x', hx', hsender', hreceiver', howner'⟩ := h.answers l hl (by rw [hy]; rfl)
  obtain rfl : x = x' := Option.some.inj (hx.symm.trans (hsource.trans hx'))
  have hdestination : k.destination = l.destination := Option.some.inj (howner.symm.trans howner')
  have hk := of_decide_eq_true (Lanes.takeFirst_split htake).1
  have hl := of_decide_eq_false hlane
  refine hl ⟨?_, ?_⟩
  · rw [hsender', ← hsender]
    exact hk.1
  · rw [hreceiver', ← hdestination, ← hreceiver]
    exact hk.2

theorem Mail.sublist (hsub : rest.Sublist network) : Mail o thread rest known asked :=
  h.sub hsub.subperm (h.order.sublist hsub)

end

theorem Mail.tail (h : Mail o thread (k :: rest) known asked) : Mail o thread rest known asked :=
  h.sublist (sublist_cons_self k rest)

section
variable (h : Mail o thread network known asked)
include h

/-- The objects change, but not for those who send or receive. -/
theorem Mail.change (hterms : ∀ x ∈ termed network, (o' x).life = (o x).life ∧
      (o' x).terminating = (o x).terminating)
    (hacks : ∀ x ∈ ackers network, (o' x).life = (o x).life)
    (hasked : ∀ p, ∀ x ∈ asked p, x ∈ termed network ∨ x ∈ ackers network → ∃ p, x ∈ asked' p)
    (howner : ∀ x p, (o x).owner = some p → (o' x).owner = some p)
    (hknown : ∀ k ∈ network, ∀ y, k.command = .termReq y → ∀ x, k.source = some x →
      x ∈ known k.destination → x ∈ known' k.destination) :
    Mail o' thread network known' asked' := by
  refine { h with terms := ?_, acks := ?_, answers := ?_, requests := ?_ }
  · intro x hx
    obtain ⟨hlife, hterminating⟩ := hterms x hx
    obtain ⟨hstarted, hfalse, p, hp⟩ := h.terms x hx
    exact ⟨hlife.trans hstarted, hterminating.trans hfalse, hasked p x hp (.inl hx)⟩
  · intro x hx
    obtain ⟨hfreed, p, hp⟩ := h.acks x hx
    exact ⟨(hacks x hx).trans hfreed, hasked p x hp (.inr hx)⟩
  · intro k hk hanswer
    obtain ⟨x, hsource, hsender, hreceiver, hx⟩ := h.answers k hk hanswer
    exact ⟨x, hsource, hsender, hreceiver, howner x _ hx⟩
  · intro k hk y hy
    obtain ⟨x, hsource, hx⟩ := h.requests k hk y hy
    exact ⟨x, hsource, hknown k hk y hy x hsource hx⟩

theorem Mail.append (hterms : ∀ x ∈ termed [k], x ∉ termed network ∧
      (o x).life = .started ∧ (o x).terminating = false ∧ ∃ p, x ∈ asked p)
    (hacks : ∀ x ∈ ackers [k], x ∉ ackers network ∧ (o x).life = .freed ∧ ∃ p, x ∈ asked p)
    (hanswer : k.command.isAnswer = true → ∃ x, k.source = some x ∧ k.sender = thread x ∧
      k.receiver = thread k.destination ∧ (o x).owner = some k.destination)
    (hrequest : ∀ y, k.command = .termReq y →
      ∃ x, k.source = some x ∧ x ∈ known k.destination ∧ x ∉ ackers network) :
    Mail o thread (network ++ [k]) known asked := by
  have hsplit {P : Packet Object Thread → Prop} (hold : ∀ l ∈ network, P l) (hnew : P k) :
      ∀ l ∈ network ++ [k], P l :=
    forall_mem_append.mpr ⟨hold, forall_mem_singleton.mpr hnew⟩
  have hone {f : Packet Object Thread → Option Object} (hold : (network.filterMap f).Nodup)
      (hnew : ∀ x ∈ [k].filterMap f, x ∉ network.filterMap f) :
      ((network ++ [k]).filterMap f).Nodup := by
    rw [filterMap_append]
    refine nodup_append'.mpr ⟨hold, ?_, fun x hx hx' => hnew x hx' hx⟩
    cases hf : f k <;> simp [hf]
  constructor
  · exact hone h.termsNodup fun x hx => (hterms x hx).1
  · intro x hx
    unfold termed at hx
    rw [filterMap_append] at hx
    exact (mem_append.mp hx).elim (h.terms x) fun hx => (hterms x hx).2
  · exact hone h.acksNodup fun x hx => (hacks x hx).1
  · intro x hx
    unfold ackers at hx
    rw [filterMap_append] at hx
    exact (mem_append.mp hx).elim (h.acks x) fun hx => (hacks x hx).2
  · exact hsplit h.answers hanswer
  · refine hsplit h.requests ?_
    intro y hy
    obtain ⟨x, hsource, hx, -⟩ := hrequest y hy
    exact ⟨x, hsource, hx⟩
  · refine pairwise_append.mpr ⟨h.order, pairwise_singleton _ _, ?_⟩
    intro l hl l' hl' hack hrequests hsource
    obtain rfl := mem_singleton.mp hl'
    obtain ⟨y, hy⟩ := hrequests
    obtain ⟨x, hx, -, hnot⟩ := hrequest y hy
    exact hnot (mem_ackers hl hack (hsource.trans hx))

/-- A command that is neither `term` nor goes to the owner. -/
theorem Mail.append_plain (hanswer : k.command.isAnswer = false)
    (hterm : ∀ linger, k.command ≠ .term linger) : Mail o thread (network ++ [k]) known asked := by
  refine h.append ?_ ?_ ?_ ?_
  · unfold termed
    cases hk : k.command with
    | term linger => exact absurd hk (hterm linger)
    | _ => simp [hk]
  · unfold ackers
    cases hk : k.command with
    | termAck =>
      rw [hk] at hanswer
      cases hanswer
    | _ => simp [hk]
  · rw [hanswer]
    exact nofun
  · intro y hy
    rw [hy] at hanswer
    cases hanswer

end

def termPacket (thread : Object → Thread) (x : Object) (linger : Int) (y : Object) :
    Packet Object Thread :=
  ⟨some x, thread x, thread y, y, .term linger⟩

theorem termed_append (network : List (Packet Object Thread)) (linger : Int) (y : Object) :
    termed (network ++ [termPacket thread x linger y]) = termed network ++ [y] := by
  simp [termed, termPacket, filterMap_append]

theorem Mail.ask (h : Mail o thread network known asked) (linger : Int) {ys : List Object}
    (hnodup : ys.Nodup) (hys : ∀ y ∈ ys, y ∉ termed network ∧ (o y).life = .started ∧
      (o y).terminating = false ∧ ∃ p, y ∈ asked p) :
    Mail o thread (network ++ ys.map (termPacket thread x linger)) known asked := by
  induction ys generalizing network with
  | nil => simpa using h
  | cons y ys ih =>
    obtain ⟨hnew, hnodup⟩ := nodup_cons.mp hnodup
    obtain ⟨hnot, hy⟩ := hys y mem_cons_self
    have hfirst : Mail o thread (network ++ [termPacket thread x linger y]) known asked := by
      refine h.append ?_ (by simp [ackers, termPacket]) nofun nofun
      intro z hz
      obtain rfl : z = y := by simpa [termed, termPacket] using hz
      exact ⟨hnot, hy⟩
    have hrest := ih hfirst hnodup (by
      intro z hz
      obtain ⟨hout, hz'⟩ := hys z (mem_cons_of_mem y hz)
      refine ⟨?_, hz'⟩
      rw [termed_append]
      intro hin
      rcases mem_append.mp hin with hin | hin
      · exact hout hin
      · exact hnew (mem_singleton.mp hin ▸ hz))
    rw [map_cons, ← singleton_append, ← append_assoc]
    exact hrest

end

end Mails

omit [LinearOrder Object] in
theorem Family.to_ask {o : Object → Own Object} {adopting asked known : Object → List Object}
    {thread : Object → Thread} {network : List (Packet Object Thread)} {p y : Object}
    (h : Family o adopting asked) (hmail : Mail o thread network known asked)
    (hy : y ∈ adopting p ∨ y ∈ (o p).owned) :
    y ∉ termed network ∧ (o y).life = .started ∧ (o y).terminating = false := by
  refine ⟨fun hin => ?_, h.waiting p y hy⟩
  obtain ⟨-, -, q, hq⟩ := hmail.terms y hin
  obtain ⟨hadopting, howned⟩ := h.not_waiting hq (q := p)
  exact hy.elim hadopting howned

end Uzmq.Owns
