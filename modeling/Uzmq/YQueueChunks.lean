import Uzmq.Linked
import Uzmq.Runs
import Uzmq.YQueues

/-!
# The chunks hold the elements in order

The chunks in use form a doubly linked list. Element `i` of the queue lies at index
`i % n` of one of them, and different elements lie at different addresses, although
chunks are freed, kept as the spare chunk and allocated again.
-/

namespace Uzmq.YQueueChunks

open Option Function List
open Linked Runs YPipes YQueues

variable {n : Nat} {α : Type}

section Heap
variable {q : YQueue n α}

abbrev Heap (α : Type) := Nat → Option (Chunk α)

variable {h : Heap α} {c d e : Nat} {cs : List Nat} {v spare : Option Nat}

def Live (h : Heap α) (c : Nat) : Prop := (h c).isSome = true

def links (h : Heap α) : Links Nat where
  next c := (h c).bind fun k => k.next
  prev c := (h c).bind fun k => k.prev

def valueAt (h : Heap α) (c i : Nat) : Option α := (h c).bind fun k => k.values i

def editPrev (h : Heap α) (c : Nat) (v : Option Nat) : Heap α :=
  update h c ((h c).map fun k => { k with prev := v })

def editNext (h : Heap α) (c : Nat) (v : Option Nat) : Heap α :=
  update h c ((h c).map fun k => { k with next := v })

def free (h : Heap α) (c : Option Nat) : Heap α :=
  match c with
  | none => h
  | some c => update h c none

theorem edit_of_live (f : Chunk α → Chunk α) (hc : Live q.chunks c) :
    q.edit c f = { q with chunks := update q.chunks c ((q.chunks c).map f) } := by
  obtain ⟨k, hk⟩ := isSome_iff_exists.mp hc
  simp [YQueue.edit, hk]

theorem setPrev_of_live (v : Option Nat) (hc : Live q.chunks c) :
    q.setPrev c v = { q with chunks := editPrev q.chunks c v } := edit_of_live _ hc

theorem setNext_of_live (v : Option Nat) (hc : Live q.chunks c) :
    q.setNext c v = { q with chunks := editNext q.chunks c v } := edit_of_live _ hc

theorem xfree_eq (q : YQueue n α) (c : Option Nat) :
    q.xfree c = { q with chunks := free q.chunks c } := by
  cases c <;> rfl

theorem live_edit {f : Chunk α → Chunk α} : Live (update h c ((h c).map f)) d ↔ Live h d := by
  rcases eq_or_ne d c with rfl | hd
  · simp [Live]
  · simp [Live, hd]

theorem valueAt_edit {f : Chunk α → Chunk α} (hf : ∀ k, (f k).values = k.values) :
    valueAt (update h c ((h c).map f)) = valueAt h := by
  funext d i
  rcases eq_or_ne d c with rfl | hd
  · cases hk : h d <;> simp [valueAt, hk, hf]
  · simp [valueAt, hd]

@[simp] theorem live_editPrev : Live (editPrev h c v) d ↔ Live h d := live_edit

@[simp] theorem live_editNext : Live (editNext h c v) d ↔ Live h d := live_edit

@[simp] theorem valueAt_editPrev : valueAt (editPrev h c v) = valueAt h :=
  valueAt_edit fun _ => rfl

@[simp] theorem valueAt_editNext : valueAt (editNext h c v) = valueAt h :=
  valueAt_edit fun _ => rfl

theorem links_editPrev (hc : Live h c) : links (editPrev h c v) = (links h).setPrev c v := by
  obtain ⟨k, hk⟩ := isSome_iff_exists.mp hc
  simp only [links, Links.setPrev, Links.mk.injEq]
  constructor
  all_goals
    funext d
    rcases eq_or_ne d c with rfl | hd
    · simp [editPrev, hk]
    · simp [editPrev, hd]

theorem links_editNext (hc : Live h c) : links (editNext h c v) = (links h).setNext c v := by
  obtain ⟨k, hk⟩ := isSome_iff_exists.mp hc
  simp only [links, Links.setNext, Links.mk.injEq]
  constructor
  all_goals
    funext d
    rcases eq_or_ne d c with rfl | hd
    · simp [editNext, hk]
    · simp [editNext, hd]

theorem free_of_ne (hne : spare ≠ some d) : free h spare d = h d := by
  cases spare with
  | none => rfl
  | some c =>
    apply update_of_ne
    rintro rfl
    exact hne rfl

/-- The chunks `cs` are linked with each other, and the spare chunk is none of them. -/
structure Chained (h : Heap α) (cs : List Nat) (spare : Option Nat) : Prop where
  nodup : cs.Nodup
  live : ∀ c ∈ cs, Live h c
  between : ∃ x y, Between (links h) x cs y
  spare : ∀ c ∈ spare, Live h c ∧ c ∉ cs

theorem Chained.congr {h' : Heap α} (hc : Chained h cs spare)
    (live : ∀ c, Live h c → c ∈ cs ∨ c ∈ spare → Live h' c)
    (same : ∀ c ∈ cs, (links h').next c = (links h).next c ∧
      (links h').prev c = (links h).prev c) : Chained h' cs spare := by
  constructor
  · exact hc.nodup
  · intro c hmem
    exact live c (hc.live c hmem) (.inl hmem)
  · obtain ⟨x, y, hbetween⟩ := hc.between
    exact ⟨x, y, hbetween.congr same⟩
  · intro c hmem
    obtain ⟨hlive, hnot⟩ := hc.spare c hmem
    exact ⟨live c hlive (.inr hmem), hnot⟩

theorem Chained.frame {h' : Heap α} (hc : Chained h cs spare)
    (same : ∀ c, c ∈ cs ∨ c ∈ spare → h' c = h c) : Chained h' cs spare := by
  apply hc.congr
  · intro c hlive hmem
    rw [Live, same c hmem]
    exact hlive
  · intro c hmem
    simp [links, same c (.inl hmem)]

theorem Chained.append (hc : Chained h cs spare) (hlast : cs.getLast? = some e)
    (hlive : Live h c) (hnew : c ∉ cs) :
    Chained (editPrev (editNext h e (some c)) c (some e)) (cs ++ [c]) none := by
  have he : e ∈ cs := mem_of_getLast? hlast
  have hne : cs ≠ [] := ne_nil_of_mem he
  constructor
  · apply nodup_append.mpr
    refine ⟨hc.nodup, by simp, ?_⟩
    intro x hx y hy
    rw [mem_singleton] at hy
    subst hy
    rintro rfl
    exact hnew hx
  · intro x hx
    simp only [live_editPrev, live_editNext]
    rcases mem_append.mp hx with hx | hx
    · exact hc.live x hx
    · rw [mem_singleton] at hx
      subst hx
      exact hlive
  · obtain ⟨x, y, hbetween⟩ := hc.between
    have hlinks : links (editPrev (editNext h e (some c)) c (some e)) =
        (links h).link (some e) (some c) := by
      rw [links_editPrev (by simpa using hlive), links_editNext (hc.live e he)]
      rfl
    have hnew' : ∀ j ∈ some c, j ∉ cs := by
      rintro j ⟨⟩
      exact hnew
    have hcs := hbetween.link_last hne hc.nodup hnew'
    rw [hlast, ← hlinks] at hcs
    refine ⟨x, (links (editPrev (editNext h e (some c)) c (some e))).next c, ?_⟩
    apply between_append.mpr
    refine ⟨hcs, ?_, rfl, trivial⟩
    rw [hlinks, link_prev_self, hlast]
    rfl
  · rintro x ⟨⟩

theorem Chained.tail (hc : Chained h (c :: d :: cs) spare) :
    (links h).next c = some d ∧ Chained (free (editPrev h d none) spare) (d :: cs) (some c) := by
  obtain ⟨x, y, -, hnext, hbetween⟩ := hc.between
  have hnodup := nodup_cons.mp hc.nodup
  have hd : Live h d := hc.live d (by simp)
  have hfree : ∀ e ∈ c :: d :: cs, free (editPrev h d none) spare e = editPrev h d none e := by
    intro e he
    apply free_of_ne
    intro heq
    exact (hc.spare e heq).2 he
  refine ⟨hnext, ?_⟩
  have hchained : Chained (editPrev h d none) (d :: cs) (some c) := by
    constructor
    · exact hnodup.2
    · intro e he
      rw [live_editPrev]
      exact hc.live e (mem_cons_of_mem c he)
    · refine ⟨none, y, ?_⟩
      rw [links_editPrev hd]
      exact hbetween.link_first (o := none) (cons_ne_nil d cs) hnodup.2 (by rintro j ⟨⟩)
    · rintro e ⟨⟩
      rw [live_editPrev]
      exact ⟨hc.live c (by simp), hnodup.1⟩
  apply hchained.frame
  rintro e (he | he)
  · exact hfree e (mem_cons_of_mem c he)
  · obtain rfl : c = e := some.inj he
    exact hfree c (by simp)

theorem Chained.dropLast (hc : Chained h (cs ++ [e]) spare) (hlast : cs.getLast? = some c) :
    (links h).prev e = some c ∧ (links h).next c = some e ∧
      Chained (editNext (free h (some e)) c none) cs spare := by
  obtain ⟨l, rfl⟩ : ∃ l, cs = l ++ [c] := getLast?_eq_some_iff.mp hlast
  obtain ⟨x, y, hbetween⟩ := hc.between
  obtain ⟨hfirst, hprev, -, -⟩ := between_append.mp hbetween
  have hnodup := nodup_append.mp hc.nodup
  have hnext : (links h).next c = some e := by
    obtain ⟨-, -, hnext, -⟩ := between_append.mp hfirst
    exact hnext
  have hnot : e ∉ l ++ [c] := by
    intro hmem
    exact hnodup.2.2 e hmem e (by simp) rfl
  refine ⟨by simpa using hprev, hnext, ?_⟩
  have hkept : Chained (free h (some e)) (l ++ [c]) spare := by
    have hshort : Chained h (l ++ [c]) spare := by
      refine ⟨hnodup.1, ?_, ⟨x, _, hfirst⟩, ?_⟩
      · intro d hd
        exact hc.live d (mem_append_left _ hd)
      intro d hd
      obtain ⟨hlive, hd'⟩ := hc.spare d hd
      refine ⟨hlive, ?_⟩
      intro hmem
      exact hd' (mem_append_left _ hmem)
    apply hshort.frame
    intro d hd
    apply free_of_ne
    rintro ⟨⟩
    rcases hd with hd | hd
    · exact hnot hd
    · exact (hc.spare e hd).2 (by simp)
  have hlive : Live (free h (some e)) c := hkept.live c (by simp)
  constructor
  · exact hnodup.1
  · intro d hd
    rw [live_editNext]
    exact hkept.live d hd
  · obtain ⟨x, y, hbetween⟩ := hkept.between
    refine ⟨x, none, ?_⟩
    have hlinked := hbetween.link_last (n := none) (by simp) hnodup.1 (by rintro j ⟨⟩)
    rw [hlast] at hlinked
    rw [links_editNext hlive]
    exact hlinked
  · intro d hd
    rw [live_editNext]
    exact hkept.spare d hd

end Heap

section Elements
variable {c fresh : Nat}

/-- The next position is in the same chunk, or the first one of the next chunk. -/
theorem div_mod_succ (hn : 0 < n) (i : Nat) :
    (i % n + 1 ≠ n ∧ (i + 1) / n = i / n ∧ (i + 1) % n = i % n + 1) ∨
      (i % n + 1 = n ∧ (i + 1) / n = i / n + 1 ∧ (i + 1) % n = 0) := by
  have hlt := Nat.mod_lt i hn
  have hi := Nat.mod_add_div i n
  by_cases hwrap : i % n + 1 = n
  · have hmul : n * (i / n + 1) = n * (i / n) + n := Nat.mul_succ n (i / n)
    have hnext := (Nat.div_mod_unique (a := i + 1) (d := i / n + 1) (c := 0) hn).mpr ⟨by omega, hn⟩
    exact .inr ⟨hwrap, hnext⟩
  · have hnext := (Nat.div_mod_unique (a := i + 1) (d := i / n) (c := i % n + 1) hn).mpr
      ⟨by omega, by omega⟩
    exact .inl ⟨hwrap, hnext⟩

/-- The address of element `i`, where the first chunk holds the elements from
`base * n` on. -/
def addr (n base : Nat) (cs : List Nat) (i : Nat) : Option Nat × Nat :=
  (cs[i / n - base]?, i % n)

/-- The queue holds the elements of `p` in the chunks `cs`; the values agree from the
front up to `filled`. -/
structure Represents (q : YQueue n α) (p : Positions α) (cs : List Nat) (filled : Nat) :
    Prop where
  pos : 0 < n
  crashed : q.crashed = false
  chained : Chained q.chunks cs q.spareChunk
  le : p.front ≤ p.back
  front : cs.head? = some q.beginChunk ∧ q.beginPos = p.front % n
  back : (q.backChunk, q.backPos) = addr n (p.front / n) cs p.back
  last : cs.getLast? = some q.endChunk ∧ q.endPos = (p.back + 1) % n
  length : cs.length + p.front / n = (p.back + 1) / n + 1
  filled_le : filled ≤ p.back + 1
  values : ∀ i, p.front ≤ i → i < filled → ∀ c, cs[i / n - p.front / n]? = some c →
    valueAt q.chunks c (i % n) = p.slots i

/-- The elements from `start` up to `stop`, which may be none, lie in the chunks `cs`; the values
are those of `slots` up to `filled`. -/
structure Spans (q : YQueue n α) (slots : Nat → Option α) (start stop : Nat) (cs : List Nat)
    (filled : Nat) : Prop where
  pos : 0 < n
  crashed : q.crashed = false
  chained : Chained q.chunks cs q.spareChunk
  le : start ≤ stop
  front : cs.head? = some q.beginChunk ∧ q.beginPos = start % n
  back : start < stop → (q.backChunk, q.backPos) = addr n (start / n) cs (stop - 1)
  last : cs.getLast? = some q.endChunk ∧ q.endPos = stop % n
  length : cs.length + start / n = stop / n + 1
  filled_le : filled ≤ stop
  values : ∀ i, start ≤ i → i < filled → ∀ c, cs[i / n - start / n]? = some c →
    valueAt q.chunks c (i % n) = slots i

variable {q q' : YQueue n α} {p : Positions α} {slots : Nat → Option α} {front stop : Nat}
  {cs : List Nat} {filled i j : Nat}

theorem represents_iff :
    Represents q p cs filled ↔
      p.front ≤ p.back ∧ Spans q p.slots p.front (p.back + 1) cs filled := by
  constructor
  · intro h
    exact ⟨h.le, h.pos, h.crashed, h.chained, Nat.le_succ_of_le h.le, h.front, fun _ => h.back,
      h.last, h.length, h.filled_le, h.values⟩
  · rintro ⟨hle, h⟩
    exact ⟨h.pos, h.crashed, h.chained, hle, h.front, h.back (Nat.lt_succ_of_le hle), h.last,
      h.length, h.filled_le, h.values⟩

theorem addr_extend {base : Nat} {cs' : List Nat} (hcs : cs <+: cs')
    (hi : i / n - base < cs.length) : addr n base cs' i = addr n base cs i := by
  obtain ⟨more, rfl⟩ := hcs
  rw [addr, addr, getElem?_append_left hi]

section
variable (h : Spans q slots front stop cs filled)
include h

theorem Spans.index_lt (hi : front ≤ i) (hstop : i ≤ stop) : i / n - front / n < cs.length := by
  have hlow := Nat.div_le_div_right (c := n) hi
  have hhigh := Nat.div_le_div_right (c := n) hstop
  have := h.length
  omega

theorem Spans.addr_inj (hi : front ≤ i) (hi' : i ≤ stop) (hj : front ≤ j)
    (heq : addr n (front / n) cs i = addr n (front / n) cs j) : i = j := by
  obtain ⟨hchunk, hmod⟩ := Prod.mk.inj heq
  have hindex := (getElem?_inj (h.index_lt hi hi') h.chained.nodup).mp hchunk
  have hlow := Nat.div_le_div_right (c := n) hi
  have hlow' := Nat.div_le_div_right (c := n) hj
  have hdiv : i / n = j / n := by omega
  rw [← Nat.mod_add_div i n, ← Nat.mod_add_div j n, hmod, hdiv]

theorem Spans.front_addr : (some q.beginChunk, q.beginPos) = addr n (front / n) cs front := by
  rw [addr, Nat.sub_self, ← head?_eq_getElem?, h.front.1, h.front.2]

/-- The writer's free slot is the one behind the back. -/
theorem Spans.end_addr : (some q.endChunk, q.endPos) = addr n (front / n) cs stop := by
  have hlength := h.length
  have hindex : stop / n - front / n = cs.length - 1 := by omega
  rw [addr, hindex, ← getLast?_eq_getElem?, h.last.1, h.last.2]

/-- Elements that have been filled are read as they were written. -/
theorem Spans.get (hi : front ≤ i) (hlt : i < filled) :
    q.get (addr n (front / n) cs i) = slots i := by
  have hfilled := h.filled_le
  have hindex := h.index_lt hi (by omega)
  rw [← h.values i hi hlt _ (getElem?_eq_getElem hindex)]
  simp [YQueue.get, addr, valueAt, getElem?_eq_getElem hindex]

theorem Spans.weaken {less : Nat} (hle : less ≤ filled) : Spans q slots front stop cs less := by
  refine { h with filled_le := hle.trans h.filled_le, values := ?_ }
  intro i hi hlt
  exact h.values i hi (hlt.trans_le hle)

end

theorem appendChunk_eq (hend : Live q.chunks q.endChunk) (hc : Live q.chunks c) :
    q.appendChunk c = { q with
      chunks := editPrev (editNext q.chunks q.endChunk (some c)) c (some q.endChunk)
      endChunk := c, endPos := 0 } := by
  rw [YQueue.appendChunk, setNext_of_live _ hend]
  rw [setPrev_of_live _ (by simpa using hc)]

/-- A push stays in the last chunk, or appends the spare chunk or a new one. -/
theorem push_cases (hpush : q.push fresh = some q') :
    (q.endPos + 1 ≠ n ∧ q' = { q with
        backChunk := some q.endChunk, backPos := q.endPos, endPos := q.endPos + 1 }) ∨
      (q.endPos + 1 = n ∧ ∃ c heap,
        (q.spareChunk = some c ∧ heap = q.chunks ∨
          ¬ Live q.chunks c ∧ heap = update q.chunks c (some {})) ∧
        q' = YQueue.appendChunk (n := n) { q with
          backChunk := some q.endChunk, backPos := q.endPos, chunks := heap,
          spareChunk := none } c) := by
  simp only [YQueue.push] at hpush
  split at hpush
  · rename_i hroom
    cases hpush
    exact .inl ⟨hroom, rfl⟩
  rename_i hfull
  right
  refine ⟨of_not_not hfull, ?_⟩
  cases hspare : q.spareChunk with
  | some sc =>
    simp only [hspare, some.injEq] at hpush
    exact ⟨sc, q.chunks, .inl ⟨rfl, rfl⟩, hpush.symm⟩
  | none =>
    simp only [hspare] at hpush
    split at hpush
    · cases hpush
    · rename_i hdead
      exact ⟨fresh, _, .inr ⟨hdead, rfl⟩, (some.inj hpush).symm⟩

/-- A chunk appended when the last one is full. -/
theorem Spans.appendChunk {heap : Heap α} (h : Spans q slots front stop cs filled)
    (hdiv : (stop + 1) / n = stop / n + 1) (hmod : (stop + 1) % n = 0)
    (same : ∀ d ∈ cs, heap d = q.chunks d) (hlive : Live heap c) (hnew : c ∉ cs) :
    Spans (YQueue.appendChunk (n := n) { q with
      backChunk := some q.endChunk, backPos := q.endPos, chunks := heap, spareChunk := none } c)
      slots front (stop + 1) (cs ++ [c]) filled := by
  have hend : q.endChunk ∈ cs := mem_of_getLast? h.last.1
  have hchained : Chained heap cs none := by
    have hshort : Chained q.chunks cs none :=
      { h.chained with spare := by rintro d ⟨⟩ }
    apply hshort.frame
    rintro d (hd | hd)
    · exact same d hd
    · cases hd
  have hfront := h.le
  have hlength := h.length
  have hfilled := h.filled_le
  rw [appendChunk_eq (hchained.live _ hend) hlive]
  constructor
  · exact h.pos
  · exact h.crashed
  · exact hchained.append h.last.1 hlive hnew
  · exact Nat.le_succ_of_le hfront
  · rw [head?_append, h.front.1]
    exact ⟨rfl, h.front.2⟩
  · intro _
    rw [Nat.add_sub_cancel, addr_extend (prefix_append cs [c]) (h.index_lt hfront le_rfl)]
    exact h.end_addr
  · exact ⟨by simp, hmod.symm⟩
  · rw [length_append, length_singleton]
    omega
  · exact Nat.le_succ_of_le hfilled
  · intro i hi hlt d hd
    simp only [valueAt_editPrev, valueAt_editNext]
    have hindex := h.index_lt hi (by omega)
    rw [getElem?_append_left hindex] at hd
    have hd' : d ∈ cs := mem_of_getElem? hd
    rw [← h.values i hi hlt d hd, valueAt, valueAt, same d hd']

theorem Spans.push (h : Spans q slots front stop cs filled) (hpush : q.push fresh = some q') :
    ∃ cs', cs <+: cs' ∧ Spans q' slots front (stop + 1) cs' filled := by
  have hend := h.last.2
  rcases div_mod_succ h.pos stop with ⟨hne, hdiv, hmod⟩ | ⟨heq, hdiv, hmod⟩
  · obtain ⟨-, rfl⟩ | ⟨hfull, -⟩ := push_cases hpush
    · refine ⟨cs, prefix_rfl, h.pos, h.crashed, h.chained, Nat.le_succ_of_le h.le, h.front,
        fun _ => h.end_addr, ⟨h.last.1, ?_⟩, ?_, Nat.le_succ_of_le h.filled_le, h.values⟩
      · rw [hmod, ← hend]
      · rw [hdiv]
        exact h.length
    · omega
  · obtain ⟨hroom, -⟩ | ⟨-, c, heap, hchunk, rfl⟩ := push_cases hpush
    · omega
    refine ⟨cs ++ [c], prefix_append _ _, ?_⟩
    rcases hchunk with ⟨hspare, rfl⟩ | ⟨hdead, rfl⟩
    · obtain ⟨hlive, hnew⟩ := h.chained.spare c hspare
      exact h.appendChunk hdiv hmod (fun d _ => rfl) hlive hnew
    have hnew : c ∉ cs := fun hmem => hdead (h.chained.live c hmem)
    refine h.appendChunk hdiv hmod ?_ (by simp [Live]) hnew
    intro d hd
    apply update_of_ne
    rintro rfl
    exact hnew hd

section
variable (h : Spans q slots front (i + 1) cs filled)
include h

/-- The back moves to the element before it; behind an empty queue it points nowhere. -/
theorem Spans.unpushBack : ∃ b k, q.unpushBack = { q with backChunk := b, backPos := k } ∧
      (front < i → (b, k) = addr n (front / n) cs (i - 1)) := by
  refine ⟨q.unpushBack.backChunk, q.unpushBack.backPos, ?_, ?_⟩
  · unfold YQueue.unpushBack
    split <;> rfl
  intro hlt
  obtain ⟨j, rfl⟩ := Nat.exists_eq_add_of_lt hlt
  obtain ⟨hchunk, hpos⟩ := Prod.mk.inj (h.back (by omega))
  rw [Nat.add_sub_cancel] at hchunk hpos
  generalize hm : front + j = m at hchunk hpos h ⊢
  have hlow : front / n ≤ m / n := Nat.div_le_div_right (by omega)
  rw [Nat.add_sub_cancel, addr]
  rcases div_mod_succ h.pos m with ⟨-, hdiv, hmod⟩ | ⟨heq, hdiv, hmod⟩
  · have hne : q.backPos ≠ 0 := by omega
    rw [YQueue.unpushBack, if_pos hne, hpos, hmod, Nat.add_sub_cancel, ← hdiv, ← hchunk]
  have hzero : ¬ q.backPos ≠ 0 := by omega
  have hindex : (m + 1) / n - front / n = m / n - front / n + 1 := by omega
  have hlt := h.index_lt (i := m + 1) (by omega) (by omega)
  rw [hindex] at hchunk hlt
  obtain ⟨x, y, hbetween⟩ := h.chained.between
  have hprev := hbetween.prev_eq (getElem?_eq_getElem hlt)
  have hbind : q.backChunk.bind q.prevOf = cs[m / n - front / n]? := by
    rw [hchunk, getElem?_eq_getElem hlt]
    exact hprev
  have hlast : n - 1 = m % n := by omega
  rw [YQueue.unpushBack, if_neg hzero, hbind, hlast]

omit h in
theorem unpushEnd_eq (hzero : q.endPos = 0) (hprev : (links q.chunks).prev q.endChunk = some c)
    (hnext : (links q.chunks).next c = some q.endChunk)
    (hlive : Live (free q.chunks (some q.endChunk)) c) :
    q.unpushEnd = { q with
      endPos := n - 1, endChunk := c
      chunks := editNext (free q.chunks (some q.endChunk)) c none } := by
  have hprev' : q.prevOf q.endChunk = some c := hprev
  have hnext' : ({ q with endPos := n - 1, endChunk := c } : YQueue n α).nextOf c =
    some q.endChunk := hnext
  simp only [YQueue.unpushEnd, hzero, ne_eq, not_true_eq_false, if_false, hprev', hnext', xfree_eq]
  rw [setNext_of_live _ hlive]

theorem Spans.unpush (hi : front ≤ i) (hfilled : filled ≤ i) :
    ∃ cs', cs' <+: cs ∧ Spans q.unpush slots front i cs' filled := by
  have hlength := h.length
  have hlow : front / n ≤ i / n := Nat.div_le_div_right hi
  obtain ⟨b, k, hunpush, hback⟩ := h.unpushBack
  rw [YQueue.unpush, hunpush]
  have hend := h.last.2
  rcases div_mod_succ h.pos i with ⟨-, hdiv, hmod⟩ | ⟨heq, hdiv, hmod⟩
  · have hne : q.endPos ≠ 0 := by omega
    simp only [YQueue.unpushEnd, if_pos hne]
    refine ⟨cs, prefix_rfl, h.pos, h.crashed, h.chained, hi, h.front, hback, ⟨h.last.1, ?_⟩, ?_,
      hfilled, h.values⟩
    · change q.endPos - 1 = i % n
      omega
    · omega
  · have hzero : q.endPos = 0 := by omega
    obtain ⟨l, hl⟩ := getLast?_eq_some_iff.mp h.last.1
    have hsize : cs.length = l.length + 1 := by
      rw [hl, length_append, length_singleton]
    obtain ⟨c, hc⟩ : ∃ c, l.getLast? = some c := by
      cases hlast : l.getLast? with
      | none =>
        rw [getLast?_eq_none_iff] at hlast
        rw [hlast, length_nil] at hsize
        omega
      | some c => exact ⟨c, rfl⟩
    have hchained := h.chained
    rw [hl] at hchained
    obtain ⟨hprev, hnext, hdrop⟩ := hchained.dropLast hc
    have hlive : Live (free q.chunks (some q.endChunk)) c := by
      have := hdrop.live c (mem_of_getLast? hc)
      simpa using this
    refine ⟨l, ⟨[q.endChunk], hl.symm⟩, ?_⟩
    rw [unpushEnd_eq (q := { q with backChunk := b, backPos := k }) hzero hprev hnext hlive]
    constructor
    · exact h.pos
    · exact h.crashed
    · exact hdrop
    · exact hi
    · have hfirst := h.front
      rw [hl, head?_append] at hfirst
      cases l with
      | nil => cases hc
      | cons d l => exact hfirst
    · intro hlt
      have hindex : (i - 1) / n - front / n < l.length := by
        have := Nat.div_le_div_right (c := n) (Nat.sub_le i 1)
        omega
      exact (hback hlt).trans (addr_extend ⟨[q.endChunk], hl.symm⟩ hindex)
    · refine ⟨hc, ?_⟩
      change n - 1 = i % n
      omega
    · omega
    · exact hfilled
    · intro j hj hlt d hd
      rw [valueAt_editNext]
      have hmem : d ∈ l := mem_of_getElem? hd
      have hne : some q.endChunk ≠ some d := by
        rintro ⟨⟩
        have hnodup := h.chained.nodup
        rw [hl] at hnodup
        exact (nodup_append.mp hnodup).2.2 _ hmem _ (by simp) rfl
      rw [valueAt, free_of_ne hne]
      apply h.values j hj hlt d
      rw [hl, List.getElem?_append_left (List.getElem?_eq_some_iff.mp hd).1]
      exact hd

omit h in
theorem pop_eq (hwrap : ¬ q.beginPos + 1 ≠ n) (hnext : (links q.chunks).next q.beginChunk = some c)
    (hlive : Live q.chunks c) :
    q.pop = { q with
      beginChunk := c, beginPos := 0, spareChunk := some q.beginChunk
      chunks := free (editPrev q.chunks c none) q.spareChunk } := by
  have hnext' : q.nextOf q.beginChunk = some c := hnext
  simp only [YQueue.pop, if_neg hwrap, hnext', xfree_eq]
  rw [setPrev_of_live (q := { q with beginChunk := c }) none hlive]

omit h in
/-- The address of an element does not change when the ones before it are removed. -/
theorem Spans.pop (h : Spans q slots front stop cs filled) (hlt : front < stop) :
    ∃ cs', Spans q.pop slots (front + 1) stop cs' filled ∧
      ∀ i, front + 1 ≤ i → addr n ((front + 1) / n) cs' i = addr n (front / n) cs i := by
  have hlength := h.length
  have hpos := h.front.2
  have hlow : (front + 1) / n ≤ stop / n := Nat.div_le_div_right hlt
  rcases div_mod_succ h.pos front with ⟨hne, hdiv, hmod⟩ | ⟨heq, hdiv, hmod⟩
  · have hroom : q.beginPos + 1 ≠ n := by omega
    refine ⟨cs, ?_, ?_⟩
    · simp only [YQueue.pop, if_pos hroom]
      refine { h with le := hlt, front := ⟨h.front.1, ?_⟩, back := ?_, length := ?_, values := ?_ }
      · change q.beginPos + 1 = (front + 1) % n
        omega
      · rw [hdiv]
        exact fun hlt' => h.back (Nat.lt_of_succ_lt hlt')
      · rw [hdiv]
        exact hlength
      · intro i hi
        rw [hdiv]
        exact h.values i (Nat.le_of_succ_le hi)
    · intro i hi
      rw [hdiv]
  · have hwrap : ¬ q.beginPos + 1 ≠ n := by omega
    obtain ⟨c, d, rest, hcs⟩ : ∃ c d rest, cs = c :: d :: rest := by
      match cs, hlength with
      | [], hlength =>
        rw [length_nil] at hlength
        omega
      | [_], hlength =>
        rw [length_singleton] at hlength
        omega
      | c :: d :: rest, _ => exact ⟨c, d, rest, rfl⟩
    subst hcs
    obtain rfl : c = q.beginChunk := some.inj h.front.1
    obtain ⟨hnext, htail⟩ := h.chained.tail
    have hlive : Live q.chunks d := h.chained.live d (by simp)
    have hshift : ∀ i, front + 1 ≤ i →
        (d :: rest)[i / n - (front + 1) / n]? =
          (q.beginChunk :: d :: rest)[i / n - front / n]? := by
      intro i hi
      have := Nat.div_le_div_right (c := n) hi
      have hindex : i / n - front / n = i / n - (front + 1) / n + 1 := by omega
      rw [hindex, getElem?_cons_succ]
    refine ⟨d :: rest, ?_, ?_⟩
    · rw [pop_eq hwrap hnext hlive]
      constructor
      · exact h.pos
      · exact h.crashed
      · exact htail
      · exact hlt
      · exact ⟨rfl, hmod.symm⟩
      · intro hlt'
        change (q.backChunk, q.backPos) = _
        rw [h.back hlt, addr, addr, hshift _ (Nat.le_sub_one_of_lt hlt')]
      · refine ⟨?_, h.last.2⟩
        rw [← h.last.1, getLast?_cons_cons]
      · rw [length_cons] at hlength
        omega
      · exact h.filled_le
      · intro i hi hi' e he
        have hmem : e ∈ q.beginChunk :: d :: rest :=
          mem_cons_of_mem _ (mem_of_getElem? he)
        rw [hshift i hi] at he
        have hne : q.spareChunk ≠ some e := fun hspare => (h.chained.spare e hspare).2 hmem
        change (free (editPrev q.chunks d none) q.spareChunk e).bind _ = _
        rw [free_of_ne hne]
        change valueAt (editPrev q.chunks d none) e (i % n) = _
        rw [valueAt_editPrev]
        exact h.values i (Nat.le_of_succ_le hi) hi' e he
    · intro i hi
      rw [addr, addr, hshift i hi]

theorem Spans.set (hi : front ≤ i) (hfilled : i ≤ filled) (value : α) :
    Spans (q.set (q.backChunk, q.backPos) value) (update slots i (some value)) front (i + 1) cs
      (i + 1) := by
  have hindex := h.index_lt hi (Nat.le_succ i)
  obtain ⟨hchunk, hpos⟩ := Prod.mk.inj (h.back (Nat.lt_succ_of_le hi))
  rw [Nat.add_sub_cancel] at hchunk hpos
  obtain ⟨c, hc⟩ : ∃ c, cs[i / n - front / n]? = some c :=
    ⟨_, getElem?_eq_getElem hindex⟩
  rw [hc] at hchunk
  have hlive := h.chained.live c (mem_of_getElem? hc)
  obtain ⟨k, hk⟩ := isSome_iff_exists.mp hlive
  obtain ⟨heap, hheap⟩ : ∃ heap, heap = update q.chunks c
    (some { k with values := update k.values (i % n) (some value) }) := ⟨_, rfl⟩
  have hset : q.set (q.backChunk, q.backPos) value = { q with chunks := heap } := by
    simp only [YQueue.set, hchunk, hpos, YQueue.edit, hk, hheap]
  rw [hset]
  have hshape : ∀ d, Live q.chunks d → Live heap d ∧ (links heap).next d = (links q.chunks).next d ∧
      (links heap).prev d = (links q.chunks).prev d := by
    intro d hd
    rcases eq_or_ne d c with rfl | heq
    · simp [hheap, Live, links, hk]
    · simpa [hheap, Live, links, heq] using hd
  refine { h with chained := ?_, filled_le := Nat.le_refl _, values := ?_ }
  · apply h.chained.congr
    · intro d hd _
      exact (hshape d hd).1
    · intro d hd
      exact (hshape d (h.chained.live d hd)).2
  · intro j hj hlt d hd
    change valueAt heap d (j % n) = update slots i (some value) j
    rcases eq_or_ne j i with rfl | hback
    · obtain rfl : c = d := some.inj (hc.symm.trans hd)
      simp [hheap, valueAt]
    have hold := h.values j hj (by omega) d hd
    rw [update_of_ne hback, ← hold]
    rcases eq_or_ne d c with rfl | heq
    · have hmod : j % n ≠ i % n := by
        intro hmod
        apply hback
        apply h.addr_inj hj (by omega) hi
        rw [addr, addr, hmod, hc]
        exact congrArg (·, i % n) hd
      simp [hheap, valueAt, hmod, hk]
    · simp [hheap, valueAt, heq]

end

section
variable (h : Represents q p cs filled)
include h

theorem Represents.spans : Spans q p.slots p.front (p.back + 1) cs filled :=
  (represents_iff.mp h).2

theorem Represents.push (hpush : q.push fresh = some q') :
    ∃ cs', cs <+: cs' ∧ Represents q' { p with back := p.back + 1 } cs' filled := by
  obtain ⟨cs', hcs, hpushed⟩ := h.spans.push hpush
  exact ⟨cs', hcs, represents_iff.mpr ⟨Nat.le_succ_of_le h.le, hpushed⟩⟩

theorem Represents.unpush (hlt : p.front < p.back) (hfilled : filled ≤ p.back) :
    ∃ cs', cs' <+: cs ∧ Represents q.unpush { p with back := p.back - 1 } cs' filled := by
  obtain ⟨cs', hcs, hunpushed⟩ := h.spans.unpush hlt.le hfilled
  have hback : p.back = p.back - 1 + 1 := by omega
  rw [hback] at hunpushed
  exact ⟨cs', hcs, represents_iff.mpr ⟨Nat.le_sub_one_of_lt hlt, hunpushed⟩⟩

theorem Represents.pop (hlt : p.front < p.back) :
    ∃ cs', Represents q.pop { p with front := p.front + 1 } cs' filled ∧
      ∀ i, p.front + 1 ≤ i → addr n ((p.front + 1) / n) cs' i = addr n (p.front / n) cs i := by
  obtain ⟨cs', hpopped, hshift⟩ := h.spans.pop (Nat.lt_succ_of_lt hlt)
  exact ⟨cs', represents_iff.mpr ⟨hlt, hpopped⟩, hshift⟩

theorem Represents.set (hfilled : p.back ≤ filled) (value : α) :
    Represents (q.set (q.backChunk, q.backPos) value)
      { p with slots := update p.slots p.back (some value) } cs (p.back + 1) :=
  represents_iff.mpr ⟨h.le, h.spans.set h.le hfilled value⟩

theorem Represents.weaken {less : Nat} (hle : less ≤ filled) : Represents q p cs less :=
  represents_iff.mpr ⟨h.le, h.spans.weaken hle⟩

end

/-- The constructor leaves an empty queue with one chunk. -/
theorem spans_create (hn : 0 < n) (first : Nat) (slots : Nat → Option α) :
    Spans (YQueue.create first : YQueue n α) slots 0 0 [first] 0 := by
  refine ⟨hn, rfl, ?_, le_rfl, ⟨rfl, (Nat.zero_mod n).symm⟩, nofun, ⟨rfl, (Nat.zero_mod n).symm⟩,
    by simp, le_rfl, nofun⟩
  refine ⟨by simp, ?_, ⟨_, _, rfl, rfl, trivial⟩, nofun⟩
  intro c hc
  rw [mem_singleton] at hc
  subst hc
  simp [Live, YQueue.create]

/-- The queue of a new pipe: the constructor's chunk, with the terminator pushed. -/
theorem represents_create {first : Nat} (hn : 0 < n)
    (hpush : (YQueue.create first : YQueue n α).push fresh = some q) :
    ∃ cs, Represents q Positions.new cs 0 := by
  obtain ⟨cs, -, h⟩ := (spans_create hn first Positions.new.slots).push hpush
  exact ⟨cs, represents_iff.mpr ⟨le_rfl, h⟩⟩

end Elements

section Calls

inductive Call (α : Type) where
  /-- `push`, and the assignment through `back`. -/
  | push (value : α) (fresh : Nat)
  | unpush
  | pop

/-- A call on the queue, and what it does to the list that the queue stands for. -/
def call (s : YQueue n α × List α) : Call α → Option (YQueue n α × List α)
  | .push value fresh =>
    (s.1.push fresh).map fun q => (q.set (q.backChunk, q.backPos) value, s.2 ++ [value])
  | .unpush => if s.2.isEmpty then none else some (s.1.unpush, s.2.dropLast)
  | .pop => if s.2.isEmpty then none else some (s.1.pop, s.2.tail)

/-- The ends of the queue are those of the list, and its positions lie in a chain of allocated
chunks without the spare one. -/
structure Denotes (q : YQueue n α) (l : List α) : Prop where
  crashed : q.crashed = false
  front : l ≠ [] → q.get (some q.beginChunk, q.beginPos) = l.head?
  back : l ≠ [] → q.get (q.backChunk, q.backPos) = l.getLast?
  positions : q.beginPos < n ∧ q.endPos < n
  chain : ∃ cs, cs.head? = some q.beginChunk ∧ cs.getLast? = some q.endChunk ∧
    Chained q.chunks cs q.spareChunk

def Holds (q : YQueue n α) (l : List α) : Prop :=
  ∃ slots front cs, Spans q slots front (front + l.length) cs (front + l.length) ∧
    ∀ i < l.length, slots (front + i) = l[i]?

variable {q q' : YQueue n α} {l : List α}

theorem Holds.denotes (h : Holds q l) : Denotes q l := by
  obtain ⟨slots, front, cs, h, hl⟩ := h
  refine ⟨h.crashed, fun hne => ?_, fun hne => ?_, ?_, cs, h.front.1, h.last.1, h.chained⟩
  · have hpos := length_pos_iff.mpr hne
    rw [h.front_addr, h.get le_rfl (by omega), head?_eq_getElem?]
    exact hl 0 hpos
  · have hpos := length_pos_iff.mpr hne
    rw [h.back (by omega), h.get (by omega) (by omega), getLast?_eq_getElem?,
      Nat.add_sub_assoc hpos]
    exact hl _ (by omega)
  · rw [h.front.2, h.last.2]
    exact ⟨Nat.mod_lt _ h.pos, Nat.mod_lt _ h.pos⟩

theorem Holds.push {fresh : Nat} (h : Holds q l) (hpush : q.push fresh = some q') (value : α) :
    Holds (q'.set (q'.backChunk, q'.backPos) value) (l ++ [value]) := by
  obtain ⟨slots, front, cs, h, hl⟩ := h
  obtain ⟨cs', -, hpushed⟩ := h.push hpush
  refine ⟨update slots (front + l.length) (some value), front, cs', ?_, ?_⟩
  · rw [length_append, length_singleton]
    exact hpushed.set (Nat.le_add_right _ _) le_rfl value
  intro i hi
  rw [length_append, length_singleton] at hi
  rcases Nat.lt_succ_iff_lt_or_eq.mp hi with hlt | rfl
  · rw [update_of_ne (by omega), getElem?_append_left hlt]
    exact hl i hlt
  · simp

theorem Holds.unpush (h : Holds q l) (hne : l ≠ []) : Holds q.unpush l.dropLast := by
  obtain ⟨slots, front, cs, h, hl⟩ := h
  have hpos := length_pos_iff.mpr hne
  have hstop : front + l.length = front + l.dropLast.length + 1 := by
    rw [length_dropLast]
    omega
  rw [hstop] at h
  obtain ⟨cs', -, hunpushed⟩ := (h.weaken (Nat.le_succ _)).unpush (Nat.le_add_right _ _) le_rfl
  refine ⟨slots, front, cs', hunpushed, fun i hi => ?_⟩
  rw [length_dropLast] at hi
  rw [hl i (by omega), getElem?_dropLast, if_pos hi]

theorem Holds.pop (h : Holds q l) (hne : l ≠ []) : Holds q.pop l.tail := by
  obtain ⟨slots, front, cs, h, hl⟩ := h
  obtain ⟨x, l, rfl⟩ := exists_cons_of_ne_nil hne
  obtain ⟨cs', hpopped, -⟩ := h.pop (by simp)
  rw [length_cons, Nat.add_left_comm, Nat.add_comm l.length] at hpopped
  refine ⟨slots, front + 1, cs', hpopped, fun i hi => ?_⟩
  rw [Nat.add_right_comm]
  exact hl (i + 1) (Nat.succ_lt_succ hi)

theorem call_holds {s t : YQueue n α × List α} {c : Call α} (h : Holds s.1 s.2)
    (hcall : call s c = some t) : Holds t.1 t.2 := by
  cases c with
  | push value fresh =>
    obtain ⟨q', hpush, rfl⟩ := Option.map_eq_some_iff.mp hcall
    exact h.push hpush value
  | unpush =>
    simp only [call] at hcall
    split at hcall
    · cases hcall
    · rename_i hne
      cases hcall
      exact h.unpush (mt isEmpty_iff.mpr hne)
  | pop =>
    simp only [call] at hcall
    split at hcall
    · cases hcall
    · rename_i hne
      cases hcall
      exact h.pop (mt isEmpty_iff.mpr hne)

/-- After every sequence of calls the queue stands for the list. -/
theorem queue_denotes_list {first : Nat} {s : YQueue n α × List α} (hn : 0 < n)
    (h : Reach (· = (YQueue.create first, [])) Always call s) : Denotes s.1 s.2 := by
  have hholds : Holds s.1 s.2 := by
    induction h with
    | start h =>
      subst h
      exact ⟨fun _ => none, 0, _, spans_create hn first _, nofun⟩
    | next _ _ hcall ih => exact call_holds ih hcall
  exact hholds.denotes

/-- Over a border of chunks of two elements and back. -/
theorem denotes_border : ∃ s : YQueue 2 Nat × List Nat, s.2 = [5] ∧ Denotes s.1 s.2 := by
  obtain ⟨s, h, hs⟩ : ∃ s : YQueue 2 Nat × List Nat,
      Reach (· = (YQueue.create 0, [])) Always call s ∧ s.2 = [5] :=
    Reach.of_exec Always call [.push 4 1, .push 5 1, .push 6 2, .unpush, .pop] ⟨_, rfl, rfl⟩ rfl
  exact ⟨s, hs, queue_denotes_list (by decide) h⟩

end Calls

end Uzmq.YQueueChunks
