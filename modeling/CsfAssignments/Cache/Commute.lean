import CsfAssignments.Lib.Reorder
import CsfAssignments.Cache.Access
/-!
# Accesses to different sets commute

An access reads and writes one set, and adds to the counters amounts that it takes from that set alone
(`access_eq`). Two accesses of different index therefore commute (`access_swap`), and a run depends only
on what each set sees.
-/

namespace CsfAssignments.CacheSim

open Reorder (SameOrder Commuting)

/-- The counters play no part in what happens to a set. -/
theorem accessSet_stats (config : CacheConfig) (store : Bool) (tag : UInt32) (set : CacheSet)
    (s s' : CacheStats) :
    (accessSet config store tag set s).1 = (accessSet config store tag set s').1 := by
  unfold accessSet
  split
  · rw [saveSet_set, saveSet_set]
  · rw [loadSet_set, loadSet_set]

theorem charge_count (s : CacheStats) (store hit : Bool) (n : UInt64) :
    (s.charge n).count store hit = (s.count store hit).charge n := by
  cases store <;> cases hit <;> rfl

theorem count_comm (s : CacheStats) (store hit store' hit' : Bool) :
    (s.count store hit).count store' hit' = (s.count store' hit').count store hit := by
  cases store <;> cases hit <;> cases store' <;> cases hit' <;> rfl

theorem charge_comm (s : CacheStats) (m n : UInt64) :
    (s.charge m).charge n = (s.charge n).charge m := by
  rw [charge_charge, charge_charge, UInt64.add_comm]

/-- **Two accesses to different sets commute**, wrapping counters included. -/
theorem Sized.access_swap {c : Cache} (h : Sized c) {a b : Access}
    (hne : c.config.home a.address ≠ c.config.home b.address) :
    (c.access a).bind (·.access b) = (c.access b).bind (·.access a) := by
  obtain ⟨ta, sa, hta, hia, hsa, -⟩ := h.locate a.address
  obtain ⟨tb, sb, htb, hib, hsb, -⟩ := h.locate b.address
  have hab : (c.put a ta sa).access b = some ((c.put a ta sa).put b tb sb) := by
    refine access_eq htb hib ?_
    rw [Cache.put, List.getElem?_set_ne hne]
    exact hsb
  have hba : (c.put b tb sb).access a = some ((c.put b tb sb).put a ta sa) := by
    refine access_eq hta hia ?_
    rw [Cache.put, List.getElem?_set_ne hne.symm]
    exact hsa
  have ha : c.access a = some (c.put a ta sa) := access_eq hta hia hsa
  have hb : c.access b = some (c.put b tb sb) := access_eq htb hib hsb
  rw [ha, hb, Option.bind_some, Option.bind_some, hab, hba]
  simp only [Cache.put, Option.some.injEq, Cache.mk.injEq, and_true]
  constructor
  · rw [List.set_comm _ _ hne, accessSet_stats c.config b.store tb sb (CacheStats.charge _ _) c.stats,
      accessSet_stats c.config a.store ta sa (CacheStats.charge _ _) c.stats]
  · rw [charge_count, charge_count, count_comm, charge_comm]

theorem access_commuting (config : CacheConfig) :
    Commuting Cache.access (fun a => config.home a.address)
      (fun c => c.config = config ∧ Sized c) where
  keeps := by
    rintro c a c' ⟨hcfg, hc⟩ hacc
    obtain ⟨tag, set, -, -, hput, hsized⟩ := hc.access a
    rw [hput, Option.some.injEq] at hacc
    exact ⟨(hacc ▸ rfl : c'.config = c.config).trans hcfg, hacc ▸ hsized⟩
  swap := by
    rintro c a b ⟨rfl, hc⟩ hne
    exact hc.access_swap hne

/-- **Only the order within each set matters.** From any reachable cache, two traces that have the same
accesses to every set, in the same order, end in the same sets and the same counters. -/
theorem run_reordered {argv : List String} {config : CacheConfig} (h : parseArgs argv = .ok config)
    (hfit : config.numSets.toNat * config.blockSize.toNat < 2 ^ 32) (fifo : UInt64)
    (past t u : List Access)
    (horder : ∀ i, t.filter (fun a => config.getIndex a.address = some i) =
      u.filter (fun a => config.getIndex a.address = some i)) :
    ∃ c d, (Cache.new config fifo).run past = some c ∧ c.run t = some d ∧ c.run u = some d := by
  have g : Geometry config := ⟨parseArgs_accepted h, hfit⟩
  have hrun (trace : List Access) := run_sets (P := fun _ => True) g fifo trivial
    (fun _ _ _ _ _ => trivial) trace
  obtain ⟨c, hpast, hcfg, hsized, -⟩ := hrun past
  obtain ⟨d, hd, -⟩ := hrun (past ++ t)
  rw [run_append hpast] at hd
  have hsame : SameOrder (fun a : Access => config.home a.address) t u := by
    intro i
    simpa only [getIndex_eq g.toAccepted, Option.some.injEq] using horder i
  exact ⟨c, d, hpast, hd,
    ((access_commuting config).foldlM_eq_of_sameOrder ⟨hcfg, hsized⟩ hsame).symm.trans hd⟩

/-- A store of set 1 moved over an evicting load of set 0. -/
theorem run_reordered_swap :
    ∃ c d, (Cache.new ⟨2, 1, 4, true, false, false⟩ 7).run [⟨true, 0⟩] = some c ∧
      c.run [⟨false, 8⟩, ⟨true, 4⟩] = some d ∧ c.run [⟨true, 4⟩, ⟨false, 8⟩] = some d :=
  run_reordered
    (show parseArgs ["csim", "2", "1", "4", "write-allocate", "write-back", "fifo"] = .ok _ from rfl)
    (by decide) 7 [⟨true, 0⟩] [⟨false, 8⟩, ⟨true, 4⟩] [⟨true, 4⟩, ⟨false, 8⟩] fun i => by
      match i with
      | 0 => rfl
      | 1 => rfl
      | i + 2 => rfl

end CsfAssignments.CacheSim
