import Mathlib

/-!
# The timer of the DPDK loop

`dpdk_thread` polls the device for ever and reads the time stamp counter once in
every iteration. `tcp_tmr` is called when the counter is an interval ahead of
`last_ts`, which every iteration sets anew. What the iteration receives and
forwards has no influence on the timer and is left out.
-/

namespace Uzmq.DpdkTimer

open List

structure Iteration where
  ts : UInt64
  called : Bool
deriving DecidableEq

/-- The iterations for the time stamps that are read, from `last_ts` on. -/
def dpdkThread (interval : UInt64) : UInt64 → List UInt64 → List Iteration
  | _, [] => []
  | lastTs, ts :: later => ⟨ts, ts - lastTs ≥ interval⟩ :: dpdkThread interval ts later

/-- The time of the last call of `tcp_tmr`, or else of the first iteration. -/
def since (before : List Iteration) (i : Iteration) : UInt64 :=
  match before.reverse.find? (·.called) with
  | some call => call.ts
  | none => (before.head?.getD i).ts

/-- Whenever the interval is over, `tcp_tmr` is called. -/
def Timely (interval : UInt64) (run : List Iteration) : Prop :=
  ∀ before i after, run = before ++ i :: after → i.ts - since before i ≥ interval → i.called = true

/-- Each of the iterations follows the one before in less than an interval. -/
def Hurried (interval : UInt64) (ts : List UInt64) : Prop :=
  ts.IsChain fun a b => b - a < interval

/-- Iterations that follow each other in less than an interval are, all together,
over in less than an interval. -/
def Bursts (interval : UInt64) (ts : List UInt64) : Prop :=
  ∀ a burst b, a :: (burst ++ [b]) <:+: ts → Hurried interval (a :: (burst ++ [b])) →
    b - a < interval

section Iterations
variable {interval lastTs : UInt64} {ts : List UInt64}

theorem dpdkThread_append (xs ys : List UInt64) :
    dpdkThread interval lastTs (xs ++ ys) =
      dpdkThread interval lastTs xs ++ dpdkThread interval (xs.getLastD lastTs) ys := by
  induction xs generalizing lastTs with
  | nil => rfl
  | cons x xs ih =>
    simp only [cons_append, dpdkThread, ih, getLastD_cons]

theorem map_ts_dpdkThread : (dpdkThread interval lastTs ts).map (·.ts) = ts := by
  induction ts generalizing lastTs with
  | nil => rfl
  | cons t ts ih => simp only [dpdkThread, map_cons, ih]

theorem length_dpdkThread : (dpdkThread interval lastTs ts).length = ts.length := by
  rw [← length_map (·.ts), map_ts_dpdkThread]

/-- No call is made in an iteration exactly if it hurries after the one before. -/
theorem hurried_iff_quiet :
    Hurried interval (lastTs :: ts) ↔ ∀ i ∈ dpdkThread interval lastTs ts, i.called = false := by
  induction ts generalizing lastTs with
  | nil => simp [Hurried, dpdkThread]
  | cons t ts ih =>
    have hlater : Hurried interval (t :: ts) ↔
        ∀ i ∈ dpdkThread interval t ts, i.called = false := ih
    simp only [Hurried, dpdkThread, isChain_cons_cons, forall_mem_cons,
      decide_eq_false_iff_not, ge_iff_le, UInt64.not_le] at hlater ⊢
    rw [hlater]

/-- A run cut in two: what is run for each part of the time stamps. -/
theorem dpdkThread_cut {before after : List Iteration}
    (h : dpdkThread interval lastTs ts = before ++ after) :
    ts = before.map (·.ts) ++ after.map (·.ts) ∧
      dpdkThread interval lastTs (before.map (·.ts)) = before ∧
      dpdkThread interval ((before.map (·.ts)).getLastD lastTs) (after.map (·.ts)) = after := by
  have hts : ts = before.map (·.ts) ++ after.map (·.ts) := by
    rw [← map_append, ← h, map_ts_dpdkThread]
  rw [hts, dpdkThread_append] at h
  exact ⟨hts, append_inj h (by rw [length_dpdkThread, length_map])⟩

end Iterations

section Since
variable {before : List Iteration} {i : Iteration}

/-- The timer is due from an iteration after which it has not been called. -/
theorem since_split (hne : before ≠ []) :
    ∃ pre c quiet, before = pre ++ c :: quiet ∧ since before i = c.ts ∧
      ∀ q ∈ quiet, q.called = false := by
  unfold since
  cases hfind : before.reverse.find? (·.called) with
  | some c =>
    obtain ⟨-, quiet, pre, hsplit, hquiet⟩ := List.find?_eq_some_iff_append.mp hfind
    have hbefore : before = pre.reverse ++ c :: quiet.reverse := by
      rw [← reverse_inj, hsplit]
      simp
    refine ⟨pre.reverse, c, quiet.reverse, hbefore, rfl, ?_⟩
    intro q hq
    simpa using hquiet q (mem_reverse.mp hq)
  | none =>
    obtain ⟨c, quiet, rfl⟩ := exists_cons_of_ne_nil hne
    have hnone := List.find?_eq_none.mp hfind
    refine ⟨[], c, quiet, rfl, rfl, ?_⟩
    intro q hq
    simpa using hnone q (by simp [hq])

/-- It is due from no later than the last iteration that may have called it. -/
theorem since_mem {quiet : List Iteration} (pre : List Iteration) (c : Iteration)
    (hquiet : ∀ q ∈ quiet, q.called = false) :
    since (pre ++ c :: quiet) i ∈ (pre ++ [c]).map (·.ts) := by
  have hskip : quiet.reverse.find? (·.called) = none := by
    rw [List.find?_eq_none]
    intro q hq
    simp [hquiet q (mem_reverse.mp hq)]
  have hfind : (pre ++ c :: quiet).reverse.find? (·.called) =
      (pre ++ [c]).reverse.find? (·.called) := by
    simp [List.find?_append, hskip]
  unfold since
  rw [hfind]
  cases hcall : (pre ++ [c]).reverse.find? (·.called) with
  | some call =>
    exact mem_map_of_mem (mem_reverse.mp (mem_of_find?_eq_some hcall))
  | none => cases pre <;> simp

end Since

theorem sub_le_sub_of_le {a b c : UInt64} (hab : a ≤ b) (hbc : b ≤ c) : c - b ≤ c - a := by
  rw [UInt64.le_iff_toNat_le] at hab hbc ⊢
  rw [UInt64.toNat_sub_of_le _ _ (UInt64.le_iff_toNat_le.mpr hbc),
    UInt64.toNat_sub_of_le _ _ (UInt64.le_iff_toNat_le.mpr (hab.trans hbc))]
  omega

section Timeliness
variable {interval : UInt64} {ts : List UInt64}

theorem timely_of_bursts (hpos : 0 < interval) (hbursts : Bursts interval ts) :
    Timely interval (dpdkThread interval 0 ts) := by
  intro before i after hrun hdue
  by_cases hne : before = []
  · subst hne
    simp only [since, reverse_nil, List.find?_nil, List.head?_nil, Option.getD_none,
      UInt64.sub_self] at hdue
    exact absurd (UInt64.lt_of_lt_of_le hpos hdue) (UInt64.lt_irrefl 0)
  · obtain ⟨pre, c, quiet, rfl, hsince, hquiet⟩ := since_split (i := i) hne
    rw [hsince] at hdue
    by_contra hcalled
    -- from the iteration it is due from, up to this one, everything hurries
    have hsplit : dpdkThread interval 0 ts = (pre ++ [c]) ++ ((quiet ++ [i]) ++ after) := by
      simpa using hrun
    obtain ⟨hts, -, hlater⟩ := dpdkThread_cut hsplit
    obtain ⟨-, hburst, -⟩ := dpdkThread_cut hlater
    have hhurried : Hurried interval (c.ts :: (quiet.map (·.ts) ++ [i.ts])) := by
      have hall : ∀ q ∈ quiet ++ [i], q.called = false := by
        simpa [or_imp, forall_and] using ⟨hquiet, Bool.eq_false_iff.mpr hcalled⟩
      rw [← hburst] at hall
      simpa using hurried_iff_quiet.mpr hall
    have hinfix : c.ts :: (quiet.map (·.ts) ++ [i.ts]) <:+: ts :=
      ⟨pre.map (·.ts), after.map (·.ts), by rw [hts]; simp⟩
    exact absurd (hbursts _ _ _ hinfix hhurried) (by simpa using hdue)

theorem bursts_of_timely (hsorted : ts.Pairwise (· < ·))
    (htimely : Timely interval (dpdkThread interval 0 ts)) : Bursts interval ts := by
  rintro a burst b ⟨xs, ys, rfl⟩ hhurried
  by_contra hlong
  have hquiet := hurried_iff_quiet.mp hhurried
  rw [dpdkThread_append, forall_mem_append] at hquiet
  obtain ⟨hburst, hlast⟩ := hquiet
  -- the iteration of `b` in the whole run, in which no call is made
  have hrun : dpdkThread interval 0 (xs ++ a :: (burst ++ [b]) ++ ys) =
      (dpdkThread interval 0 xs ++ ⟨a, a - xs.getLastD 0 ≥ interval⟩ ::
        dpdkThread interval a burst) ++
      ⟨b, b - burst.getLastD a ≥ interval⟩ :: dpdkThread interval b ys := by
    simp only [append_assoc, dpdkThread_append, cons_append, dpdkThread, nil_append]
  refine absurd (htimely _ _ _ hrun ?_) (Bool.eq_false_iff.mp (hlast _ (mem_singleton_self _)))
  obtain ⟨hbefore, hafter, hcross⟩ := pairwise_append.mp hsorted
  obtain ⟨hxs, hlater, hxsa⟩ := pairwise_append.mp hbefore
  have hab : a < b := rel_of_pairwise_cons hlater (by simp)
  have hsince : since (dpdkThread interval 0 xs ++ ⟨a, a - xs.getLastD 0 ≥ interval⟩ ::
      dpdkThread interval a burst) ⟨b, b - burst.getLastD a ≥ interval⟩ ≤ a := by
    have hmem := since_mem (i := ⟨b, b - burst.getLastD a ≥ interval⟩)
      (dpdkThread interval 0 xs) ⟨a, a - xs.getLastD 0 ≥ interval⟩ hburst
    rw [map_append, map_ts_dpdkThread, mem_append] at hmem
    rcases hmem with hmem | hmem
    · exact UInt64.le_of_lt (hxsa _ hmem a mem_cons_self)
    · exact UInt64.le_of_eq (mem_singleton.mp hmem)
  exact UInt64.le_trans (UInt64.not_lt.mp hlong) (sub_le_sub_of_le hsince (UInt64.le_of_lt hab))

/-- The timer of the loop is timely exactly if no sequence of quick iterations takes
as long as an interval. -/
theorem timely_iff_bursts (ts : List UInt64) (interval : UInt64)
    (hsorted : ts.Pairwise (· < ·)) (hpos : 0 < interval) :
    Timely interval (dpdkThread interval 0 ts) ↔ Bursts interval ts :=
  ⟨bursts_of_timely hsorted, timely_of_bursts hpos⟩

end Timeliness

theorem spaced_timely : ([100, 112, 130] : List UInt64).Pairwise (· < ·) ∧ (0 : UInt64) < 10 ∧
    Timely 10 (dpdkThread 10 0 [100, 112, 130]) := by
  refine ⟨by decide, by decide, (timely_iff_bursts _ _ (by decide) (by decide)).mpr ?_⟩
  intro a burst b hinfix hhurried
  have hspaced : (a :: (burst ++ [b])).IsChain fun a b => ¬ b - a < 10 :=
    List.IsChain.infix (by decide) hinfix
  cases burst with
  | nil | cons =>
    exact absurd (isChain_cons_cons.mp hhurried).1 (isChain_cons_cons.mp hspaced).1

/-- Iterations of four ticks each: after the first call, none is made any more. -/
theorem steady_starved : ([100, 104, 108, 112] : List UInt64).Pairwise (· < ·) ∧
    (0 : UInt64) < 10 ∧ ¬ Timely 10 (dpdkThread 10 0 [100, 104, 108, 112]) := by
  refine ⟨by decide, by decide, ?_⟩
  intro h
  have hcalled := h [⟨100, true⟩, ⟨104, false⟩, ⟨108, false⟩] ⟨112, false⟩ []
    (by decide) (by decide)
  exact Bool.false_ne_true hcalled

end Uzmq.DpdkTimer
