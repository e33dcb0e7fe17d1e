import CloudBurrow.Process.OrderedMap
import CloudBurrow.Storage.Recovery

namespace CloudBurrow.Metastore

open Utf8 OrderedMap Recovery

section Listing

def MemTx.seen (t : MemTx) (pre : Bytes) : Std.ExtTreeMap Bytes Bool :=
  t.writes.toList.foldl (fun seen w => if pre.isPrefixOf w.1 then seen.insert w.1 w.2.isSome else seen)
    (t.base.keys.foldl (fun seen k => if pre.isPrefixOf k then seen.insert k true else seen) ∅)

def MemTx.list (t : MemTx) (pre : Bytes) : List Bytes :=
  (((t.seen pre).toList.filter fun e => e.2).map Prod.fst).mergeSort fun a b => (compare a b).isLE

theorem seen_base (pre k : Bytes) (keys : List Bytes) (seen : Std.ExtTreeMap Bytes Bool) :
    (keys.foldl (fun seen k => if pre.isPrefixOf k then seen.insert k true else seen) seen)[k]? =
      if pre.isPrefixOf k ∧ k ∈ keys then some true else seen[k]? := by
  induction keys generalizing seen with
  | nil => simp
  | cons key keys ih =>
    rw [List.foldl_cons, ih]
    by_cases hkey : key = k
    · subst hkey
      by_cases hpre : pre.isPrefixOf key = true <;> simp [hpre]
    · have hne : k ≠ key := fun heq => hkey heq.symm
      by_cases hpre : pre.isPrefixOf key = true
      · simp [hpre, hne, hkey, Std.ExtTreeMap.getElem?_insert]
      · simp [hpre, hne]

theorem seen_absent {pre k : Bytes} (ws : List (Bytes × Option Bytes)) (seen : Std.ExtTreeMap Bytes Bool)
    (h : ∀ w ∈ ws, w.1 ≠ k) :
    (ws.foldl (fun seen w => if pre.isPrefixOf w.1 then seen.insert w.1 w.2.isSome else seen) seen)[k]? =
      seen[k]? := by
  induction ws generalizing seen with
  | nil => rfl
  | cons w ws ih =>
    obtain ⟨hw, hws⟩ := List.forall_mem_cons.mp h
    rw [List.foldl_cons, ih _ hws]
    split_ifs
    · simp [Std.ExtTreeMap.getElem?_insert, hw]
    · rfl

theorem seen_present {pre k : Bytes} {v : Option Bytes} (ws : List (Bytes × Option Bytes))
    (seen : Std.ExtTreeMap Bytes Bool) (hd : ws.Pairwise fun a b => a.1 ≠ b.1) (h : (k, v) ∈ ws) :
    (ws.foldl (fun seen w => if pre.isPrefixOf w.1 then seen.insert w.1 w.2.isSome else seen) seen)[k]? =
      if pre.isPrefixOf k then some v.isSome else seen[k]? := by
  induction ws generalizing seen with
  | nil => exact absurd h (by simp)
  | cons w ws ih =>
    obtain ⟨hw, hws⟩ := List.pairwise_cons.mp hd
    rcases List.mem_cons.mp h with rfl | hmem
    · rw [List.foldl_cons, seen_absent ws _ fun x hx => (hw x hx).symm]
      split_ifs
      · simp
      · rfl
    · rw [List.foldl_cons, ih _ hws hmem]
      have hne : w.1 ≠ k := hw _ hmem
      split_ifs <;> simp [Std.ExtTreeMap.getElem?_insert, hne]

theorem distinct_writes (writes : Std.ExtTreeMap Bytes (Option Bytes)) :
    writes.toList.Pairwise fun a b => a.1 ≠ b.1 :=
  Std.ExtTreeMap.distinct_keys_toList.imp fun h heq => h (by simp [heq])

theorem not_written {writes : Std.ExtTreeMap Bytes (Option Bytes)} {k : Bytes} (hk : writes[k]? = none) :
    ∀ w ∈ writes.toList, w.1 ≠ k := by
  intro w hw hwk
  have hsome := Std.ExtTreeMap.mem_toList_iff_getElem?_eq_some.mp hw
  rw [hwk, hk] at hsome
  cases hsome

theorem MemTx.seen_alive (t : MemTx) (pre k : Bytes) :
    (t.seen pre)[k]? = some true ↔ pre.isPrefixOf k = true ∧ (t.get k).isSome := by
  cases hk : t.writes[k]? with
  | some v =>
    rw [MemTx.seen, seen_present _ _ (distinct_writes _)
      (Std.ExtTreeMap.mem_toList_iff_getElem?_eq_some.mpr hk), seen_base, MemTx.get, hk]
    by_cases hpre : pre.isPrefixOf k = true <;> simp [hpre]
  | none =>
    rw [MemTx.seen, seen_absent _ _ (not_written hk), seen_base, MemTx.get, hk]
    simp

theorem MemTx.list_eq {t : MemTx} {m : Map} (h : ∀ k, t.get k = m[k]?) (pre : Bytes) :
    t.list pre = m.keys.filter fun k => pre.isPrefixOf k := by
  have halive : (((t.seen pre).toList.filter fun e => e.2).map Prod.fst).Pairwise fun a b => compare a b = .lt := by
    rw [List.pairwise_map]
    exact Std.ExtTreeMap.ordered_keys_toList.filter _
  have hkeys : (m.keys.filter fun k => pre.isPrefixOf k).Pairwise fun a b => compare a b = .lt :=
    Std.ExtTreeMap.ordered_keys.filter _
  rw [MemTx.list, mergeSort_of_ordered halive]
  refine eq_of_mem_iff halive hkeys fun k => ?_
  have hseen := t.seen_alive pre k
  simp only [List.mem_map, List.mem_filter, Prod.exists, Std.ExtTreeMap.mem_keys,
    Std.ExtTreeMap.mem_iff_isSome_getElem?, Std.ExtTreeMap.mem_toList_iff_getElem?_eq_some]
  rw [← h k, and_comm (a := (t.get k).isSome = true), ← hseen]
  constructor
  · rintro ⟨k', live, ⟨hlive, rfl⟩, rfl⟩
    exact hlive
  · exact fun hlive => ⟨k, true, ⟨hlive, rfl⟩, rfl⟩

end Listing

section Sizes

inductive Commits (m : Map) (writes : Std.ExtTreeMap Bytes (Option Bytes)) : Map × Int → Prop
  | ranged (ws : List (Bytes × Option Bytes)) (h : ws.Perm writes.toList) : Commits m writes (ws.foldl commitOne (m, 0))

def weight (e : Bytes × Bytes) : Int := ((e.1.length + e.2.length : Nat) : Int)

theorem recountLive_eq_total (m : Map) : recountLive m = total weight m := by
  have hfold : ∀ (es : List (Bytes × Bytes)) (n : Int),
      es.foldl (fun n p => n + ((p.1.length + p.2.length : Nat) : Int)) n = n + (es.map weight).sum := by
    intro es
    induction es with
    | nil => simp
    | cons e es ih =>
      intro n
      rw [List.foldl_cons, ih, List.map_cons, List.sum_cons, weight]
      ring
  rw [recountLive, hfold, zero_add, total]

theorem commitOne_delta (acc : Map × Int) (w : Bytes × Option Bytes) :
    (commitOne acc w).2 - acc.2 = recountLive (commitOne acc w).1 - recountLive acc.1 := by
  obtain ⟨m, delta⟩ := acc
  obtain ⟨k, v⟩ := w
  simp only [recountLive_eq_total]
  cases hold : m[k]? with
  | some old =>
    have hm := total_present weight hold
    cases v with
    | none =>
      simp only [commitOne, hold, hm, weight]
      ring
    | some new =>
      simp only [commitOne, hold, total_insert, hm, weight]
      ring
  | none =>
    cases v with
    | none =>
      simp only [commitOne, hold, erase_absent hold, sub_self]
    | some new =>
      simp only [commitOne, hold, total_insert, erase_absent hold, weight]
      ring

theorem foldl_commitOne_delta (ws : List (Bytes × Option Bytes)) (acc : Map × Int) :
    (ws.foldl commitOne acc).2 - acc.2 = recountLive (ws.foldl commitOne acc).1 - recountLive acc.1 := by
  induction ws generalizing acc with
  | nil => simp
  | cons w ws ih =>
    have hstep := commitOne_delta acc w
    have hrest := ih (commitOne acc w)
    rw [List.foldl_cons]
    omega

theorem Commits.get {m m' : Map} {writes : Std.ExtTreeMap Bytes (Option Bytes)} {delta : Int}
    (h : Commits m writes (m', delta)) (k : Bytes) : m'[k]? = (commit m writes).1[k]? := by
  generalize hr : (m', delta) = r at h
  obtain ⟨ws, hperm⟩ := h
  have hm' : m' = (ws.foldl commitOne (m, 0)).1 := congrArg Prod.fst hr
  have hd : ws.Pairwise fun a b => a.1 ≠ b.1 :=
    (hperm.pairwise_iff fun hne => Ne.symm hne).mpr (distinct_writes writes)
  rw [hm', commit_get]
  cases hk : writes[k]? with
  | some v =>
    exact foldl_commitOne_present _ _ hd
      (hperm.mem_iff.mpr (Std.ExtTreeMap.mem_toList_iff_getElem?_eq_some.mpr hk))
  | none => exact foldl_commitOne_absent _ _ fun w hw => not_written hk w (hperm.mem_iff.mp hw)

theorem Commits.delta {m m' : Map} {writes : Std.ExtTreeMap Bytes (Option Bytes)} {delta : Int}
    (h : Commits m writes (m', delta)) : delta = recountLive m' - recountLive m := by
  generalize hr : (m', delta) = r at h
  obtain ⟨ws, -⟩ := h
  have hdelta := foldl_commitOne_delta ws (m, 0)
  rw [← hr] at hdelta
  simpa using hdelta

end Sizes

theorem overlay_is_replay (base : Map) (fn : List Write) :
    (MemTx.run base fn).ordered = fn.map Write.op ∧
    (∀ m delta, Commits base (MemTx.run base fn).writes (m, delta) →
      m = apply base (MemTx.run base fn).ordered ∧ delta = recountLive m - recountLive base) ∧
    ∀ before, before <+: fn →
      (∀ key, (MemTx.run base before).get key = (apply base (MemTx.run base before).ordered)[key]?) ∧
      ∀ pre, (MemTx.run base before).list pre =
          ((apply base (MemTx.run base before).ordered).keys.filter fun k => pre.isPrefixOf k) ∧
        ((MemTx.run base before).list pre).Pairwise fun a b => compare a b = .lt := by
  refine ⟨MemTx.ordered_run base fn, ?_, ?_⟩
  · intro m delta hc
    refine ⟨?_, hc.delta⟩
    rw [MemTx.ordered_run, ← commit_eq_apply]
    exact Std.ExtTreeMap.ext_getElem? hc.get
  · intro before _
    have hget : ∀ key, (MemTx.run base before).get key =
        (apply base (MemTx.run base before).ordered)[key]? := by
      intro key
      have htracks := MemTx.tracks_run base before key
      rwa [MemTx.base_run] at htracks
    refine ⟨hget, fun pre => ?_⟩
    have hlist := MemTx.list_eq hget pre
    refine ⟨hlist, ?_⟩
    rw [hlist]
    exact Std.ExtTreeMap.ordered_keys.filter _

theorem overlay_is_replay_of_append_after_delete :
    (commit ∅ (MemTx.run ∅ [.put [97] [], .delete [97], .append [97] [49]]).writes).2 = 4 ∧
      (MemTx.run ∅ [.put [97] [], .delete [97], .append [97] [49]]).get [97] = some [91, 49, 93] ∧
      (MemTx.run ∅ [.put [97] [], .delete [97], .append [97] [49]]).list [] = [[97]] := by
  have h := overlay_is_replay ∅ [.put [97] [], .delete [97], .append [97] [49]]
  have hcommit := h.2.1 _ _ (.ranged _ (.refl _))
  have hreads := h.2.2 _ (List.prefix_refl _)
  refine ⟨hcommit.2.trans ?_, (hreads.1 [97]).trans ?_, (hreads.2 []).1.trans ?_⟩
  all_goals decide

end CloudBurrow.Metastore
