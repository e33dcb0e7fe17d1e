import CloudBurrow.Secrets.KubeStore

namespace CloudBurrow.Secrets

open Utf8
open Tasks (slash)

def CachedSecret.shown (c : CachedSecret) : CachedSecret := { c with legacy := ∅ }

section Objects

variable (o : Objects)

def metaOf : Option Bytes := o.head.bind fun h => h.metaJSON.map toValid

def Migrated : Prop := ∀ h, o.head = some h → h.annotated = ∅

def seen : Option CachedSecret :=
  if o.head = none ∧ o.own = ∅ then none else some ⟨metaOf o, o.head.isSome, ∅, o.own⟩

end Objects

theorem old_of_migrated {h : Head} (hm : h.annotated = ∅) : h.old = ∅ := by
  refine Std.ExtTreeMap.ext_getElem? fun n => ?_
  rw [Head.old, Std.ExtTreeMap.getElem?_filterMap', hm]
  simp

theorem empty_union_own (m : Std.ExtTreeMap Int Version) : (∅ : Std.ExtTreeMap Int Version) ∪ m = m := by
  refine Std.ExtTreeMap.ext_getElem? fun n => ?_
  rw [Std.ExtTreeMap.getElem?_union]
  simp

theorem insert_ne_empty (m : Std.ExtTreeMap Int Version) (n : Int) (v : Version) : m.insert n v ≠ ∅ := by
  intro h
  have hget : (m.insert n v)[n]? = some v := by simp
  rw [h] at hget
  simp at hget

theorem isEmpty_of_ne {m : Std.ExtTreeMap Int Version} (h : m ≠ ∅) : m.isEmpty = false := by
  rw [Bool.eq_false_iff, ne_eq, Std.ExtTreeMap.isEmpty_iff]
  exact h

theorem cached_shown {o : Objects} (hm : Migrated o) : o.cached.map CachedSecret.shown = seen o := by
  cases hhead : o.head with
  | some h =>
    have hold : h.old = ∅ := old_of_migrated (hm h hhead)
    simp [Objects.cached, hhead, hold, empty_union_own, metaOf, seen, CachedSecret.shown]
  | none =>
    by_cases hown : o.own = ∅
    · simp [Objects.cached, hhead, hown, seen]
    · simp [Objects.cached, hhead, hown, isEmpty_of_ne hown, metaOf, seen, CachedSecret.shown]

section Slots

variable {N : Naming} (k : Bytes) (o : Objects)

theorem own_version (n : Int) (v : Version) : ((Apply.version k n v).slot N o).own = o.own.insert n v := by
  refine Std.ExtTreeMap.ext_getElem? fun m => ?_
  simp only [Apply.slot, Objects.own, Std.ExtTreeMap.getElem?_filterMap', Std.ExtTreeMap.getElem?_insert]
  split_ifs <;> simp

theorem own_less (n : Int) : (o.less n).own = o.own.erase n := by
  refine Std.ExtTreeMap.ext_getElem? fun m => ?_
  simp only [Objects.less, Objects.own, Std.ExtTreeMap.getElem?_filterMap', Std.ExtTreeMap.getElem?_erase]
  split_ifs <;> simp

theorem own_nothing : Objects.nothing.own = ∅ := by
  refine Std.ExtTreeMap.ext_getElem? fun n => ?_
  simp [Objects.own, Objects.nothing]

theorem seen_head (m : Option Bytes) (l : Std.ExtTreeMap Int (Option Bytes)) :
    seen ((Apply.head k m l).slot N o) = some ⟨m.map toValid, true, ∅, o.own⟩ := by
  have hown : ((Apply.head k m l).slot N o).own = o.own := rfl
  rw [seen, hown]
  simp [metaOf, Apply.slot, Function.comp_def]

theorem seen_version (n : Int) (v : Version) : seen ((Apply.version k n v).slot N o) =
      some ⟨metaOf o, o.head.isSome, ∅, o.own.insert n v⟩ := by
  rw [seen, own_version, if_neg fun h => insert_ne_empty o.own n v h.2]
  rfl

theorem seen_less (n : Int) : seen (o.less n) =
      if o.head = none ∧ o.own.erase n = ∅ then none else some ⟨metaOf o, o.head.isSome, ∅, o.own.erase n⟩ := by
  rw [seen, own_less]
  rfl

theorem seen_headless : seen o.headless = if o.own = ∅ then none else some ⟨none, false, ∅, o.own⟩ := by
  have hown : o.headless.own = o.own := rfl
  rw [seen, hown]
  simp [Objects.headless, metaOf]

theorem migrated_head (m : Option Bytes) (l : Std.ExtTreeMap Int (Option Bytes)) :
    Migrated ((Apply.head k m l).slot N o) := by
  intro h hh
  cases hh
  rfl

theorem seen_nothing : seen .nothing = none := if_pos ⟨rfl, own_nothing⟩

end Slots

def Objects.Labelled (o : Objects) (label : Bytes) : Prop :=
  (∀ h ∈ o.head, h.label = none ∨ h.label = some label) ∧ ∀ e ∈ o.versions.toList, e.2.label = some label

instance (o : Objects) (label : Bytes) : Decidable (o.Labelled label) := inferInstanceAs (Decidable (_ ∧ _))

section Labels

variable {o : Objects} {label : Bytes}

theorem labelled_iff : o.Labelled label ↔ (∀ h, o.head = some h → h.label = none ∨ h.label = some label) ∧
    ∀ (n : Int) s, o.versions[n]? = some s → s.label = some label := by
  refine and_congr Iff.rfl ⟨fun h n s hs => ?_, fun h e he => ?_⟩
  · exact h (n, s) (Std.ExtTreeMap.mem_toList_iff_getElem?_eq_some.mpr hs)
  · exact h e.1 e.2 (Std.ExtTreeMap.mem_toList_iff_getElem?_eq_some.mp he)

theorem Objects.Labelled.slot {N : Naming} {a : Apply} (h : o.Labelled (N.label a.key)) :
    (a.slot N o).Labelled (N.label a.key) := by
  rw [labelled_iff] at h ⊢
  cases a with
  | head k m l =>
    refine ⟨fun h' hh' => ?_, h.2⟩
    cases hh'
    exact .inr rfl
  | version k n v =>
    refine ⟨h.1, fun m s hs => ?_⟩
    simp only [Apply.slot, Std.ExtTreeMap.getElem?_insert] at hs
    split_ifs at hs
    · cases hs
      rfl
    · exact h.2 m s hs

theorem Objects.Labelled.less (h : o.Labelled label) (n : Int) : (o.less n).Labelled label := by
  rw [labelled_iff] at h ⊢
  refine ⟨h.1, fun m s hs => ?_⟩
  simp only [Objects.less, Std.ExtTreeMap.getElem?_erase] at hs
  split_ifs at hs
  exact h.2 m s hs

theorem Objects.Labelled.headless (h : o.Labelled label) : o.headless.Labelled label :=
  ⟨fun _ hh => (nomatch hh), h.2⟩

theorem labelled_nothing : Objects.nothing.Labelled label := by
  rw [labelled_iff]
  exact ⟨fun h hh => (nomatch hh), fun n s hs => by simp [Objects.nothing] at hs⟩

theorem unlabelled_headless (h : o.Labelled label) : (o.unlabelled label).headless = .nothing := by
  have hversions : (o.versions.filter fun _ s => s.label ≠ some label) = ∅ := by
    refine Std.ExtTreeMap.ext_getElem? fun n => ?_
    rw [Std.ExtTreeMap.getElem?_filter']
    cases hs : o.versions[n]? with
    | none => simp
    | some s => simp [(labelled_iff.mp h).2 n s hs]
  simp only [Objects.headless, Objects.unlabelled, hversions, Objects.nothing]

theorem unlabelled_other (h : o.Labelled label) {label' : Bytes} (hne : label ≠ label') :
    o.unlabelled label' = o := by
  obtain ⟨hhead, hversions⟩ := labelled_iff.mp h
  have hkept : (o.versions.filter fun _ s => s.label ≠ some label') = o.versions := by
    refine Std.ExtTreeMap.ext_getElem? fun n => ?_
    rw [Std.ExtTreeMap.getElem?_filter']
    cases hs : o.versions[n]? with
    | none => rfl
    | some s => simp [hversions n s hs, hne]
  have hsame : o.head.filter (·.label ≠ some label') = o.head := by
    cases hh : o.head with
    | none => rfl
    | some h => rcases hhead h hh with hl | hl <;> simp [hl, hne]
  rw [Objects.unlabelled, hkept, hsame]

end Labels

section Held

variable {N : Naming} {cl : Cluster} {k : Bytes}

theorem nothing_of (k : Bytes) : Objects.nothing.of k = .nothing := by
  have hversions : ((∅ : Std.ExtTreeMap Int VersionSecret).filter fun _ s => s.owner = k) = ∅ :=
    Std.ExtTreeMap.ext_getElem? fun n => by simp
  simp only [Objects.nothing, Objects.of, hversions, Option.filter_none]

theorem of_nothing_iff {o : Objects} : o.of k = .nothing ↔
    (∀ h, o.head = some h → h.owner ≠ k) ∧ ∀ (n : Int) s, o.versions[n]? = some s → s.owner ≠ k := by
  have hversions : (o.versions.filter fun _ s => s.owner = k) = ∅ ↔
      ∀ (n : Int) s, o.versions[n]? = some s → s.owner ≠ k := by
    constructor
    · intro h n s hs hown
      have hget : (o.versions.filter fun _ s => s.owner = k)[n]? = some s := by
        rw [Std.ExtTreeMap.getElem?_filter', hs]
        simp [hown]
      rw [h] at hget
      simp at hget
    · intro h
      refine Std.ExtTreeMap.ext_getElem? fun n => ?_
      rw [Std.ExtTreeMap.getElem?_filter']
      cases hs : o.versions[n]? with
      | none => simp
      | some s => simp [h n s hs]
  rw [Objects.of, Objects.nothing, Objects.mk.injEq, hversions]
  simp [Option.filter_eq_none_iff]

theorem slot_of_self {a : Apply} (ha : toValid a.key = a.key) (o : Objects) :
    (a.slot N o).of a.key = a.slot N (o.of a.key) := by
  cases a with
  | head k m l =>
    have hk : toValid k = k := ha
    simp [Apply.slot, Objects.of, Apply.key, hk]
  | version k n v =>
    have hk : toValid k = k := ha
    simp only [Apply.slot, Objects.of, Apply.key, Objects.mk.injEq, true_and]
    refine Std.ExtTreeMap.ext_getElem? fun m => ?_
    simp only [Std.ExtTreeMap.getElem?_filter', Std.ExtTreeMap.getElem?_insert]
    split_ifs
    · simp [VersionSecret.of, hk]
    · rfl

theorem slot_of_other {a : Apply} (hne : toValid a.key ≠ k) {o : Objects} (ho : o.of k = .nothing) :
    (a.slot N o).of k = .nothing := by
  rw [of_nothing_iff] at ho ⊢
  cases a with
  | head k' m l =>
    refine ⟨fun h hh => ?_, ho.2⟩
    cases hh
    exact hne
  | version k' n v =>
    refine ⟨ho.1, fun m s hs => ?_⟩
    simp only [Apply.slot, Std.ExtTreeMap.getElem?_insert] at hs
    split_ifs at hs
    · cases hs
      exact hne
    · exact ho.2 m s hs

theorem held_apply_self {a : Apply} (ha : toValid a.key = a.key) :
    (cl.apply N a).held N a.key = a.slot N (cl.held N a.key) := by
  rw [Cluster.held, Cluster.apply, Std.ExtTreeMap.getElem?_insert_self]
  exact slot_of_self ha _

theorem held_apply_other {a : Apply} (hne : toValid a.key ≠ k)
    (hclear : N.name k = N.name a.key → cl.held N k = .nothing) : (cl.apply N a).held N k = cl.held N k := by
  by_cases hname : N.name k = N.name a.key
  · have hheld := hclear hname
    rw [hheld]
    rw [Cluster.held, hname] at hheld
    rw [Cluster.held, Cluster.apply, hname, Std.ExtTreeMap.getElem?_insert_self]
    exact slot_of_other hne hheld
  · simp [Cluster.held, Cluster.apply, Std.ExtTreeMap.getElem?_insert, Ne.symm hname]

variable {f : Objects → Objects}

theorem held_modify (hf : ∀ o, (f o).of k = f (o.of k)) (hnothing : f .nothing = .nothing) (b : Bytes) :
    Cluster.held N (cl.modify b f) k = if b = N.name k then f (cl.held N k) else cl.held N k := by
  simp only [Cluster.held, Std.ExtTreeMap.getElem?_modify, Std.compare_eq_iff_eq]
  split_ifs with hb
  · subst hb
    cases cl[N.name k]? with
    | none => simp [nothing_of, hnothing]
    | some o => exact hf o
  · rfl

theorem held_map (hf : ∀ o, (f o).of k = f (o.of k)) (hnothing : f .nothing = .nothing) :
    Cluster.held N (cl.map fun _ o => f o) k = f (cl.held N k) := by
  simp only [Cluster.held, Std.ExtTreeMap.getElem?_map]
  cases cl[N.name k]? with
  | none => simp [nothing_of, hnothing]
  | some o => exact hf o

theorem less_of (n : Int) (o : Objects) : (o.less n).of k = (o.of k).less n := by
  simp only [Objects.less, Objects.of, Objects.mk.injEq, true_and]
  refine Std.ExtTreeMap.ext_getElem? fun m => ?_
  simp only [Std.ExtTreeMap.getElem?_filter', Std.ExtTreeMap.getElem?_erase]
  split_ifs <;> rfl

theorem unlabelled_of (label : Bytes) (o : Objects) : (o.unlabelled label).of k = (o.of k).unlabelled label := by
  simp only [Objects.unlabelled, Objects.of, Objects.mk.injEq]
  refine ⟨?_, Std.ExtTreeMap.ext_getElem? fun m => ?_⟩
  · simp [Option.filter_filter, Bool.and_comm]
  · simp [Option.filter_filter, Bool.and_comm]

theorem less_nothing (n : Int) : Objects.nothing.less n = .nothing := by
  simp [Objects.less, Objects.nothing]

theorem unlabelled_nothing (label : Bytes) : Objects.nothing.unlabelled label = .nothing := by
  have hversions : ((∅ : Std.ExtTreeMap Int VersionSecret).filter fun _ s => s.label ≠ some label) = ∅ :=
    Std.ExtTreeMap.ext_getElem? fun n => by simp
  simp only [Objects.nothing, Objects.unlabelled, hversions, Option.filter_none]

end Held

structure Agrees (N : Naming) (w : Kube) : Prop where
  migrated : ∀ k, skipped k = false → Migrated (w.cluster.held N k)
  same : ∀ k, skipped k = false → w.secrets[k]?.map CachedSecret.shown = seen (w.cluster.held N k)
  ignored : ∀ k, skipped k = true → w.secrets[k]? = none

def Cluster.Inside (N : Naming) (S : Set Bytes) (cl : Cluster) : Prop := ∀ k, cl.held N k ≠ .nothing → k ∈ S

structure Mirrors (N : Naming) (S : Set Bytes) (w : Kube) : Prop extends Agrees N w where
  inside : w.cluster.Inside N S
  labelled : ∀ k, (w.cluster.held N k).Labelled (N.label k)

section Agreement

variable {N : Naming} {S : Set Bytes} {w w' : Kube} {k : Bytes}

theorem valid_of_read (hk : skipped k = false) : toValid k = k := by
  simp only [skipped, Bool.or_eq_false_iff] at hk
  simpa using hk.2

theorem Cluster.Inside.clear {cl : Cluster} (h : cl.Inside N S) (hS : Set.InjOn N.name S) (hk : k ∈ S) {k' : Bytes}
    (hne : k ≠ k') (hname : N.name k' = N.name k) : cl.held N k' = .nothing := by
  by_contra hheld
  exact hne (hS (h k' hheld) hk hname).symm

theorem Agrees.entry (h : Agrees N w) (hk : skipped k = false) :
    (w.entry k).metaJSON = metaOf (w.cluster.held N k) ∧ (w.entry k).head = (w.cluster.held N k).head.isSome ∧
      (w.entry k).versions = (w.cluster.held N k).own := by
  have hsame := h.same k hk
  unfold seen at hsame
  split_ifs at hsame with hempty
  · have hnone : w.secrets[k]? = none := by simpa using hsame
    simp [Kube.entry, hnone, metaOf, hempty.1, hempty.2]
  · obtain ⟨c, hc, hshown⟩ := Option.map_eq_some_iff.mp hsame
    have hentry : w.entry k = c := by simp [Kube.entry, hc]
    rw [hentry]
    exact ⟨congrArg CachedSecret.metaJSON hshown, congrArg CachedSecret.head hshown,
      congrArg CachedSecret.versions hshown⟩

theorem Agrees.cached (h : Agrees N w) {c : CachedSecret} (hc : w.secrets[k]? = some c) :
    skipped k = false ∧ c.metaJSON = metaOf (w.cluster.held N k) ∧ c.head = (w.cluster.held N k).head.isSome ∧
      c.versions = (w.cluster.held N k).own := by
  have hk : skipped k = false := by
    by_contra hk
    rw [h.ignored k (Bool.eq_true_of_not_eq_false hk)] at hc
    cases hc
  have hentry : w.entry k = c := by simp [Kube.entry, hc]
  exact ⟨hk, hentry ▸ h.entry hk⟩

theorem Mirrors.changed (h : Mirrors N S w) (hS : k ∈ S)
    (hsecrets : ∀ k', k ≠ k' → w'.secrets[k']? = w.secrets[k']?)
    (hcluster : ∀ k', k ≠ k' → w'.cluster.held N k' = w.cluster.held N k')
    (hignored : skipped k = true → w'.secrets[k]? = none)
    (hmigrated : skipped k = false → Migrated (w'.cluster.held N k))
    (hsame : skipped k = false → w'.secrets[k]?.map CachedSecret.shown = seen (w'.cluster.held N k))
    (hlabelled : (w'.cluster.held N k).Labelled (N.label k)) : Mirrors N S w' := by
  refine ⟨⟨fun k' hk' => ?_, fun k' hk' => ?_, fun k' hk' => ?_⟩, fun k' hk' => ?_, fun k' => ?_⟩ <;>
    by_cases heq : k = k'
  · exact heq ▸ hmigrated (heq ▸ hk')
  · exact hcluster k' heq ▸ h.migrated k' hk'
  · exact heq ▸ hsame (heq ▸ hk')
  · rw [hsecrets k' heq, hcluster k' heq]
    exact h.same k' hk'
  · exact heq ▸ hignored (heq ▸ hk')
  · rw [hsecrets k' heq]
    exact h.ignored k' hk'
  · exact heq ▸ hS
  · exact h.inside k' (hcluster k' heq ▸ hk')
  · exact heq ▸ hlabelled
  · exact hcluster k' heq ▸ h.labelled k'

variable (hN : Set.InjOn N.name S)

include hN

theorem Mirrors.applied (h : Mirrors N S w) (a : Apply) (c : CachedSecret) (hS : a.key ∈ S)
    (hk : skipped a.key = false) (hmigrated : Migrated (a.slot N (w.cluster.held N a.key)))
    (hc : some c.shown = seen (a.slot N (w.cluster.held N a.key))) :
    Mirrors N S { w with cluster := w.cluster.apply N a, secrets := w.secrets.insert a.key c } := by
  have ha := valid_of_read hk
  have hslot : (w.cluster.apply N a).held N a.key = a.slot N (w.cluster.held N a.key) := held_apply_self ha
  refine h.changed hS (fun k' hne => ?_) (fun k' hne => ?_) (fun hn => ?_) (fun _ => ?_) (fun _ => ?_) ?_
  · simp [Std.ExtTreeMap.getElem?_insert, hne]
  · exact held_apply_other (ha.symm ▸ hne) (h.inside.clear hN hS hne)
  · rw [hk] at hn
    cases hn
  · exact hslot.symm ▸ hmigrated
  · rw [hslot, ← hc]
    simp
  · exact hslot.symm ▸ (h.labelled a.key).slot

theorem Mirrors.putSecret (h : Mirrors N S w) (hS : k ∈ S) (hk : skipped k = false) (f : Faults)
    {value : Written} (hvalue : toValid value.raw = value.raw) :
    Mirrors N S (w.putKey N f value (.secret k)).2 := by
  unfold Kube.putKey
  by_cases hmain : f.main
  · simp only [hmain, if_true]
    refine h.applied hN (.head k _ _) _ hS hk (migrated_head k _ _ _) ?_
    rw [seen_head]
    have hversions := (h.entry hk).2.2
    split_ifs <;> simp [CachedSecret.shown, hversions, hvalue, Apply.key]
  · rw [Bool.not_eq_true] at hmain
    simpa [hmain] using h

theorem Mirrors.dropLegacy (h : Mirrors N S w) (hS : k ∈ S) {c : CachedSecret}
    (hc : w.secrets[k]? = some c) (ok : Bool) (n : Int) : Mirrors N S (w.dropLegacy N ok k c n).2 := by
  obtain ⟨hk, hmeta, hhead, hversions⟩ := h.cached hc
  unfold Kube.dropLegacy
  split_ifs with hlegacy hok
  · rw [Bool.and_eq_true] at hlegacy
    refine h.applied hN (.head k _ _) _ hS hk (migrated_head k _ _ _) ?_
    rw [seen_head]
    simp [CachedSecret.shown, hversions, hlegacy.2, hmeta, Apply.key, metaOf, Function.comp_def,
      Option.map_bind]
  · refine h.changed hS (fun k' hne => ?_) (fun k' hne => rfl) (fun hn => ?_)
      (fun hk => h.migrated k hk) (fun hk => ?_) (h.labelled k)
    · simp [Std.ExtTreeMap.getElem?_insert, hne]
    · rw [hk] at hn
      cases hn
    · rw [← h.same k hk, hc]
      simp [CachedSecret.shown]
  · exact h

theorem Mirrors.putVersion (h : Mirrors N S w) (hS : k ∈ S) (hk : skipped k = false) (f : Faults)
    (value : Written) (n : Int) : Mirrors N S (w.putKey N f value (.version k n)).2 := by
  unfold Kube.putKey
  cases value.decoded with
  | none => exact h
  | some v =>
    by_cases hmain : f.main
    · have hput : Mirrors N S { w with
          cluster := w.cluster.apply N (.version k n v)
          secrets := w.secrets.insert k
            { w.entry k with versions := (w.entry k).versions.insert n v } } := by
        obtain ⟨hmeta, hhead, hversions⟩ := h.entry hk
        refine h.applied hN (.version k n v) _ hS hk (h.migrated k hk) ?_
        rw [seen_version]
        simp [CachedSecret.shown, hmeta, hhead, hversions, Apply.key]
      simp only [hmain, if_true]
      split_ifs with hpayload
      · exact hput.dropLegacy hN hS (by simp) f.head n
      · exact hput
    · rw [Bool.not_eq_true] at hmain
      simpa [hmain] using h

theorem Mirrors.modified_other {f : Objects → Objects} (h : Mirrors N S w) (hS : k ∈ S) {k' : Bytes} (hne : k ≠ k')
    (hf : ∀ o, (f o).of k' = f (o.of k')) (hnothing : f .nothing = .nothing) :
    Cluster.held N (w.cluster.modify (N.name k) f) k' = w.cluster.held N k' := by
  rw [held_modify hf hnothing]
  split_ifs with hname
  · rw [h.inside.clear hN hS hne hname.symm, hnothing]
  · rfl

theorem Mirrors.deleteSecret (h : Mirrors N S w) (hS : k ∈ S) (f : Faults) :
    Mirrors N S (w.deleteKey N f (.secret k)).2 := by
  unfold Kube.deleteKey
  cases hc : w.secrets[k]? with
  | none => simpa [hc] using h
  | some c =>
    obtain ⟨hk, -, -, hversions⟩ := h.cached hc
    by_cases hmain : f.main
    · simp only [hc, hmain, if_true]
      have hslot : (w.cluster.deleteHead N k).held N k = (w.cluster.held N k).headless := by
        rw [Cluster.deleteHead, held_modify (f := Objects.headless) (fun _ => rfl) rfl, if_pos rfl]
      refine h.changed hS (fun k' hne => ?_) (fun k' hne => h.modified_other hN hS hne (fun _ => rfl) rfl)
        (fun hn => ?_) (fun _ => ?_) (fun _ => ?_) (hslot.symm ▸ (h.labelled k).headless)
      · dsimp only
        split_ifs
        · simp [Std.ExtTreeMap.getElem?_erase, hne]
        · simp [Std.ExtTreeMap.getElem?_insert, hne]
      · rw [hk] at hn
        cases hn
      · rw [hslot]
        exact fun _ hh' => nomatch hh'
      · rw [hslot, seen_headless, hversions]
        by_cases hown : (w.cluster.held N k).own = ∅
        · simp [hown]
        · simp [hown, isEmpty_of_ne hown, CachedSecret.shown]
    · rw [Bool.not_eq_true] at hmain
      simpa [hc, hmain] using h

omit hN

theorem erase_of_not_contains {m : Std.ExtTreeMap Int Version} {n : Int}
    (h : m.contains n = false) : m.erase n = m := by
  refine Std.ExtTreeMap.ext_getElem? fun i => ?_
  rw [Std.ExtTreeMap.getElem?_erase]
  split_ifs with hi
  · rw [Std.LawfulEqCmp.eq_of_compare hi] at h
    exact (Std.ExtTreeMap.getElem?_eq_none_of_contains_eq_false h).symm
  · rfl

section Removal

variable {c : CachedSecret} (n : Int)

theorem removeVersion_cached (hc : w.secrets[k]? = some c) :
    (w.removeVersion N k c n).secrets[k]? = some { c with versions := c.versions.erase n } := by
  unfold Kube.removeVersion
  split_ifs with hn
  · simp
  · rw [Bool.not_eq_true] at hn
    rw [erase_of_not_contains hn, hc]

theorem held_removeVersion : (w.removeVersion N k c n).cluster.held N k =
    if c.versions.contains n then (w.cluster.held N k).less n else w.cluster.held N k := by
  unfold Kube.removeVersion
  split_ifs
  · rw [Cluster.deleteVersion, held_modify (less_of n) (less_nothing n), if_pos rfl]
  · rfl

theorem seen_removeVersion (hversions : c.versions = (w.cluster.held N k).own) :
    seen ((w.removeVersion N k c n).cluster.held N k) =
      if (w.cluster.held N k).head = none ∧ (w.cluster.held N k).own.erase n = ∅ then none
      else some ⟨metaOf (w.cluster.held N k), (w.cluster.held N k).head.isSome, ∅, (w.cluster.held N k).own.erase n⟩ := by
  rw [held_removeVersion]
  cases hn : c.versions.contains n with
  | true => exact seen_less _ n
  | false =>
    rw [hversions] at hn
    rw [erase_of_not_contains hn]
    rfl

theorem removeVersion_elsewhere (hN : Set.InjOn N.name S) (h : Mirrors N S w) (hS : k ∈ S) (c : CachedSecret) {k' : Bytes} (hne : k ≠ k') :
    (w.removeVersion N k c n).secrets[k']? = w.secrets[k']? ∧
      (w.removeVersion N k c n).cluster.held N k' = w.cluster.held N k' := by
  unfold Kube.removeVersion
  split_ifs
  · refine ⟨?_, h.modified_other hN hS hne (less_of n) (less_nothing n)⟩
    simp [Std.ExtTreeMap.getElem?_insert, hne]
  · exact ⟨rfl, rfl⟩

theorem labelled_removeVersion (h : Mirrors N S w) :
    ((w.removeVersion N k c n).cluster.held N k).Labelled (N.label k) := by
  rw [held_removeVersion]
  split_ifs
  · exact (h.labelled k).less n
  · exact h.labelled k

theorem migrated_removeVersion (h : Migrated (w.cluster.held N k)) :
    Migrated ((w.removeVersion N k c n).cluster.held N k) := by
  rw [held_removeVersion]
  split_ifs <;> exact h

end Removal

include hN

theorem Mirrors.deleteVersion (h : Mirrors N S w) (hS : k ∈ S) (n : Int) (f : Faults) :
    Mirrors N S (w.deleteKey N f (.version k n)).2 := by
  unfold Kube.deleteKey
  cases hc : w.secrets[k]? with
  | none => simpa [hc] using h
  | some c =>
    obtain ⟨hk, hmeta, hhead, hversions⟩ := h.cached hc
    have hcached := removeVersion_cached (N := N) n hc
    have hseen := seen_removeVersion n hversions
    simp only [hc]
    have hnothing : (!c.head && (c.versions.erase n).isEmpty) = true ↔
        (w.cluster.held N k).head = none ∧ (w.cluster.held N k).own.erase n = ∅ := by
      rw [Bool.and_eq_true, Bool.not_eq_true', Std.ExtTreeMap.isEmpty_iff, hhead, hversions, Option.isSome_eq_false_iff,
        Option.isNone_iff_eq_none]
    split_ifs with hfail hempty
    · exact h
    -- Nothing is left of the secret: the cached copy goes too.
    · have hnone : (w.removeVersion N k c n).dropLegacy N f.head k
          { c with versions := c.versions.erase n } n = (true, w.removeVersion N k c n) := by
        simp [Kube.dropLegacy, hhead, (hnothing.mp hempty).1]
      rw [hnone]
      rw [if_pos (hnothing.mp hempty)] at hseen
      refine h.changed hS (fun k' hne => ?_) (fun k' hne => (removeVersion_elsewhere n hN h hS c hne).2) (fun hn => ?_)
        (fun _ => migrated_removeVersion n (h.migrated k hk)) (fun _ => ?_) (labelled_removeVersion n h)
      · simpa [Std.ExtTreeMap.getElem?_erase, hne] using (removeVersion_elsewhere n hN h hS c hne).1
      · simp
      · simpa using hseen.symm
    · have hremoved : Mirrors N S (w.removeVersion N k c n) := by
        rw [if_neg (mt hnothing.mpr hempty), ← hhead, ← hversions, ← hmeta] at hseen
        refine h.changed hS (fun k' hne => (removeVersion_elsewhere n hN h hS c hne).1)
          (fun k' hne => (removeVersion_elsewhere n hN h hS c hne).2) (fun hn => ?_)
          (fun _ => migrated_removeVersion n (h.migrated k hk)) (fun _ => ?_) (labelled_removeVersion n h)
        · rw [hk] at hn
          cases hn
        · rw [hcached, hseen]
          rfl
      have hdrop := hremoved.dropLegacy hN hS hcached f.head n
      split <;> next heq => exact heq ▸ hdrop

theorem Mirrors.deleteRecords (h : Mirrors N S w) (hL : Set.InjOn N.label S) (hS : k ∈ S) (f : Faults)
    (hf : f.main = true → f.head = true) : Mirrors N S (w.deleteRecords N f k).2 := by
  unfold Kube.deleteRecords
  by_cases hmain : f.main
  · simp only [hmain, hf hmain, if_true]
    have hheld : ∀ k', (w.cluster.deleteLabelled N k).held N k' = (w.cluster.held N k').unlabelled (N.label k) :=
      fun k' => held_map (unlabelled_of (N.label k)) (unlabelled_nothing (N.label k))
    have hslot : ((w.cluster.deleteLabelled N k).deleteHead N k).held N k = .nothing := by
      rw [Cluster.deleteHead, held_modify (f := Objects.headless) (fun _ => rfl) rfl, if_pos rfl, hheld, unlabelled_headless (h.labelled k)]
    refine h.changed hS (fun k' hne => ?_) (fun k' hne => ?_) (fun _ => ?_) (fun _ => ?_) (fun _ => ?_)
      (hslot.symm ▸ labelled_nothing)
    · simp [Std.ExtTreeMap.getElem?_erase, hne]
    · rw [Cluster.deleteHead, held_modify (f := Objects.headless) (fun _ => rfl) rfl, hheld]
      by_cases hnone : w.cluster.held N k' = .nothing
      · rw [hnone, unlabelled_nothing]
        exact ite_self _
      · have hS' := h.inside k' hnone
        rw [unlabelled_other (h.labelled k') fun heq => hne (hL hS' hS heq).symm,
          if_neg fun heq => hne (hN hS hS' heq)]
    · simp
    · rw [hslot]
      exact fun _ hh' => nomatch hh'
    · rw [hslot, seen_nothing]
      simp
  · rw [Bool.not_eq_true] at hmain
    simpa [hmain] using h

end Agreement

end CloudBurrow.Secrets
