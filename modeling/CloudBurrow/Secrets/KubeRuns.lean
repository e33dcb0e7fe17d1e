import CloudBurrow.Secrets.KubeAgreement

namespace CloudBurrow.Secrets

open Utf8
open Tasks (slash)

section Listing

variable {N : Naming} {cl : Cluster} {k : Bytes}

theorem mem_listed {rank : Bytes → Nat} : k ∈ cl.listed N rank ↔ (cl.held N k).head.isSome := by
  simp only [Cluster.listed, List.mem_flatMap, List.mem_insertionSort, List.mem_filter, List.mem_map, decide_eq_true_eq]
  constructor
  · rintro ⟨e, he, ⟨h, hh, rfl⟩, hname⟩
    have hget : cl[N.name h.owner]? = some e.2 := by
      rw [hname]
      exact Std.ExtTreeMap.mem_toList_iff_getElem?_eq_some.mp he
    simp [Cluster.held, hget, Objects.of, Option.mem_toList.mp hh]
  · intro h
    cases hget : cl[N.name k]? with
    | none => simp [Cluster.held, hget, Objects.of, Objects.nothing] at h
    | some o =>
      simp only [Cluster.held, hget, Objects.of, Option.getD_some, Option.isSome_filter, Option.any_eq_true,
        decide_eq_true_eq] at h
      obtain ⟨h, hh, rfl⟩ := h
      exact ⟨(N.name h.owner, o), Std.ExtTreeMap.mem_toList_iff_getElem?_eq_some.mpr hget,
        ⟨h, Option.mem_toList.mpr hh, rfl⟩, rfl⟩

theorem nodup_listed (N : Naming) (cl : Cluster) (rank : Bytes → Nat) : (cl.listed N rank).Nodup := by
  have hperm := (List.perm_insertionSort (fun a b => rank a.1 ≤ rank b.1) cl.toList).flatMap_right fun e =>
    (e.2.head.toList.map Head.owner).filter fun k => N.name k = e.1
  rw [Cluster.listed, hperm.nodup_iff, List.nodup_flatMap]
  refine ⟨fun e _ => ?_, cl.distinct_keys_toList.imp fun hne k hk hk' => hne ?_⟩
  · cases e.2.head with
    | none => simp
    | some h => exact (List.nodup_singleton _).filter _
  · simp only [List.mem_filter, decide_eq_true_eq] at hk hk'
    rw [← hk.2, ← hk'.2]
    exact Std.ReflCmp.compare_self

theorem held_of_not_owner (h : k ∉ cl.owners N) : cl.held N k = .nothing := by
  rw [Cluster.held]
  cases hget : cl[N.name k]? with
  | none => exact nothing_of k
  | some o =>
    have hout : k ∉ o.owners := fun hmem => h (List.mem_flatMap.mpr ⟨(N.name k, o),
      Std.ExtTreeMap.mem_toList_iff_getElem?_eq_some.mpr hget, List.mem_filter.mpr ⟨hmem, by simp⟩⟩)
    simp only [Objects.owners, List.mem_append, List.mem_map, not_or, not_exists, not_and] at hout
    refine of_nothing_iff.mpr ⟨fun h hh => hout.1 h (Option.mem_toList.mpr hh), fun n s hs => ?_⟩
    exact hout.2 (n, s) (Std.ExtTreeMap.mem_toList_iff_getElem?_eq_some.mpr hs)

theorem getElem?_foldl_alter (view : Bytes → Option CachedSecret) (ks : List Bytes) (s : Cache) :
    (ks.foldl (fun s k => s.alter k fun _ => view k) s)[k]? = if k ∈ ks then view k else s[k]? := by
  induction ks generalizing s with
  | nil => rfl
  | cons k' ks ih =>
    rw [List.foldl_cons, ih, Std.ExtTreeMap.getElem?_alter]
    by_cases hks : k ∈ ks
    · simp [hks]
    · by_cases hk : k' = k
      · simp [hk]
      · simp [hks, hk, Ne.symm hk]

theorem readSecrets_get {s : Cache} (h : readSecrets N cl = some s) (k : Bytes) : s[k]? = cl.view N k := by
  unfold readSecrets at h
  split_ifs at h
  cases h
  rw [getElem?_foldl_alter]
  split_ifs with hk
  · rfl
  · rw [Cluster.view, held_of_not_owner hk]
    have hnone : Objects.nothing.cached = none := by
      simp [Objects.cached, own_nothing, show Objects.nothing.head = none from rfl]
    rw [hnone, ite_self]
    simp

end Listing

section Applies

variable {N : Naming}

theorem applyAll_take (as : List Apply) (ok : List Bool) (cl : Cluster) :
    ∃ i, (applyAll N as ok cl).2 = (as.take i).foldl (Cluster.apply N) cl ∧
      ((applyAll N as ok cl).1 = true → i = as.length) := by
  induction as generalizing ok cl with
  | nil => exact ⟨0, rfl, fun _ => rfl⟩
  | cons a as ih =>
    rw [applyAll]
    split_ifs with hfail
    · exact ⟨0, rfl, fun h => nomatch h⟩
    · obtain ⟨i, hi, hall⟩ := ih ok.tail (cl.apply N a)
      exact ⟨i + 1, hi, fun h => congrArg (· + 1) (hall h)⟩

def settle (N : Naming) (o : Objects) (as : List Apply) : Objects := as.foldl (fun o a => a.slot N o) o

variable {S : Set Bytes} {cl : Cluster} {k : Bytes}

theorem Cluster.Inside.apply (h : cl.Inside N S) (hN : Set.InjOn N.name S) {a : Apply} (ha : a.key ∈ S)
    (hvalid : toValid a.key = a.key) :
    (cl.apply N a).Inside N S ∧ ∀ k, a.key ≠ k → (cl.apply N a).held N k = cl.held N k := by
  have hother : ∀ k, a.key ≠ k → (cl.apply N a).held N k = cl.held N k := fun k hne =>
    held_apply_other (hvalid.symm ▸ hne) (h.clear hN ha hne)
  refine ⟨fun k hk => ?_, hother⟩
  by_cases hkey : a.key = k
  · exact hkey ▸ ha
  · exact h k (hother k hkey ▸ hk)

theorem held_foldl_apply (hN : Set.InjOn N.name S) (h : cl.Inside N S) {as : List Apply}
    (has : ∀ a ∈ as, a.key ∈ S ∧ toValid a.key = a.key) (k : Bytes) :
    (as.foldl (Cluster.apply N) cl).held N k = settle N (cl.held N k) (as.filter fun a => a.key = k) := by
  induction as generalizing cl with
  | nil => rfl
  | cons a as ih =>
    obtain ⟨⟨ha, hvalid⟩, hrest⟩ := List.forall_mem_cons.mp has
    obtain ⟨hin, hother⟩ := h.apply hN ha hvalid
    rw [List.foldl_cons, ih hin hrest]
    by_cases hk : a.key = k
    · subst hk
      rw [held_apply_self hvalid]
      simp [settle]
    · rw [hother k hk]
      simp [hk]

theorem key_of_mem_migrations {k : Bytes} {o : Objects} {a : Apply} (h : a ∈ migrations k o) :
    a.key = k ∧ skipped k = false := by
  unfold migrations at h
  cases ho : o.head with
  | none => simp [ho] at h
  | some head =>
    simp only [ho] at h
    split_ifs at h with hskip
    · cases h
    · simp only [Bool.or_eq_true, not_or, Bool.not_eq_true] at hskip
      rw [List.mem_append, List.mem_map, List.mem_singleton] at h
      rcases h with ⟨e, -, rfl⟩ | rfl <;> exact ⟨rfl, hskip.1⟩

theorem migrations_headless {o : Objects} (h : o.head = none) : migrations k o = [] := by
  simp [migrations, h]

theorem filter_flatMap_keyed {f : Bytes → List Apply} {ks : List Bytes} (hks : ks.Nodup)
    (hf : ∀ k, ∀ a ∈ f k, a.key = k) :
    (ks.flatMap f).filter (fun a => a.key = k) = if k ∈ ks then f k else [] := by
  have hone : ∀ k', (f k').filter (fun a => a.key = k) = if k' = k then f k' else [] := by
    intro k'
    split_ifs with hk
    · refine List.filter_eq_self.mpr fun a ha => ?_
      simp [hf k' a ha, hk]
    · refine List.filter_eq_nil_iff.mpr fun a ha => ?_
      simp [hf k' a ha, hk]
  induction ks with
  | nil => rfl
  | cons k' ks ih =>
    obtain ⟨hout, hks⟩ := List.nodup_cons.mp hks
    rw [List.flatMap_cons, List.filter_append, hone, ih hks]
    by_cases hk : k' = k
    · subst hk
      simp [hout]
    · simp [hk, Ne.symm hk]

theorem filter_migrations (rank : Bytes → Nat) :
    (cl.migrations N rank).filter (fun a => a.key = k) = migrations k (cl.held N k) := by
  rw [Cluster.migrations, filter_flatMap_keyed (nodup_listed N cl rank) fun k a ha => (key_of_mem_migrations ha).1]
  split_ifs with hk
  · rfl
  · rw [mem_listed, Bool.not_eq_true, Option.isSome_eq_false_iff, Option.isNone_iff_eq_none] at hk
    exact (migrations_headless hk).symm

theorem migrations_inside (h : cl.Inside N S) {rank : Bytes → Nat} :
    ∀ a ∈ cl.migrations N rank, a.key ∈ S ∧ toValid a.key = a.key := by
  intro a ha
  obtain ⟨k, -, hk⟩ := List.mem_flatMap.mp ha
  obtain ⟨rfl, hread⟩ := key_of_mem_migrations hk
  refine ⟨h _ fun hnone => ?_, valid_of_read hread⟩
  rw [hnone, migrations_headless rfl] at hk
  cases hk

end Applies

section Migration

variable (N : Naming) (k : Bytes) (o : Objects)

theorem settle_versions (es : List (Int × Version)) :
    (settle N o (es.map fun e => .version k e.1 e.2)).head = o.head ∧
      (settle N o (es.map fun e => .version k e.1 e.2)).own = o.own.insertMany es := by
  induction es generalizing o with
  | nil => exact ⟨rfl, by simp [settle]⟩
  | cons e es ih =>
    obtain ⟨hhead, hown⟩ := ih ((Apply.version k e.1 e.2).slot N o)
    refine ⟨hhead, ?_⟩
    rw [Std.ExtTreeMap.insertMany_cons, ← own_version (N := N) k]
    exact hown

theorem settle_snoc (as : List Apply) (a : Apply) : settle N o (as ++ [a]) = a.slot N (settle N o as) := by
  simp [settle]

theorem settle_labelled {N : Naming} {k : Bytes} {o : Objects} (ho : o.Labelled (N.label k)) {as : List Apply}
    (has : ∀ a ∈ as, a.key = k) : (settle N o as).Labelled (N.label k) := by
  induction as generalizing o with
  | nil => exact ho
  | cons a as ih =>
    obtain ⟨rfl, hrest⟩ := List.forall_mem_cons.mp has
    exact ih ho.slot hrest

theorem insertMany_old (old own : Std.ExtTreeMap Int Version) :
    own.insertMany (old.filter fun n _ => !own.contains n).toList = old ∪ own := by
  set added := old.filter fun n _ => !own.contains n with hadded
  have hget : ∀ n : Int, added[n]? = if own.contains n then none else old[n]? := by
    intro n
    rw [hadded, Std.ExtTreeMap.getElem?_filter']
    cases own.contains n <;> cases old[n]? <;> rfl
  refine Std.ExtTreeMap.ext_getElem? fun n => ?_
  rw [Std.ExtTreeMap.getElem?_union]
  cases hn : added[n]? with
  | some v =>
    have hmem := Std.ExtTreeMap.mem_toList_iff_getElem?_eq_some.mpr hn
    rw [Std.ExtTreeMap.getElem?_insertMany_list_of_mem Std.ReflCmp.compare_self
      Std.ExtTreeMap.distinct_keys_toList hmem]
    rw [hget] at hn
    split_ifs at hn with hown
    rw [Std.ExtTreeMap.getElem?_eq_none_of_contains_eq_false (Bool.eq_false_of_not_eq_true hown), hn]
    rfl
  | none =>
    have habsent : (added.toList.map Prod.fst).contains n = false := by
      rw [Bool.eq_false_iff, ne_eq, List.contains_iff_mem, List.mem_map]
      rintro ⟨e, he, rfl⟩
      rw [Std.ExtTreeMap.mem_toList_iff_getElem?_eq_some.mp he] at hn
      cases hn
    rw [Std.ExtTreeMap.getElem?_insertMany_list_of_contains_eq_false habsent]
    rw [hget] at hn
    split_ifs at hn with hown
    · obtain ⟨v, hv⟩ := Option.isSome_iff_exists.mp
        (Std.ExtTreeMap.contains_eq_isSome_getElem?.symm.trans hown)
      rw [hv]
      rfl
    · rw [hn]
      simp

theorem migrations_eq {k : Bytes} {o : Objects} {h : Head} (hk : skipped k = false)
    (hhead : o.head = some h) (hann : h.annotated ≠ ∅) :
    migrations k o = ((h.old.filter fun n _ => !o.own.contains n).toList.map fun e => .version k e.1 e.2) ++
        [.head k (h.metaJSON.map toValid) h.data] := by
  have hne : h.annotated.isEmpty = false := by
    rw [Bool.eq_false_iff, ne_eq, Std.ExtTreeMap.isEmpty_iff]
    exact hann
  simp [migrations, hhead, hk, hne]

theorem migration_seen {N : Naming} {k : Bytes} (hk : skipped k = false) (o : Objects) :
    Migrated (settle N o (migrations k o)) ∧
      o.cached.map CachedSecret.shown = seen (settle N o (migrations k o)) := by
  by_cases hmigrated : Migrated o
  · have hnone : migrations k o = [] := by
      cases hhead : o.head with
      | none => exact migrations_headless hhead
      | some h => simp [migrations, hhead, hmigrated h hhead]
    rw [hnone]
    exact ⟨hmigrated, cached_shown hmigrated⟩
  · simp only [Migrated, not_forall] at hmigrated
    obtain ⟨h, hhead, hann⟩ := hmigrated
    rw [migrations_eq hk hhead hann, settle_snoc, seen_head, (settle_versions N k o _).2, insertMany_old]
    refine ⟨migrated_head k _ _ _, ?_⟩
    simp [Objects.cached, hhead, CachedSecret.shown, Function.comp_def]

end Migration

def Kube.Coherent (N : Naming) (w : Kube) : Prop := w.loaded = true → Agrees N w

section Loading

variable {N : Naming} {S : Set Bytes} {w : Kube}

theorem load_cut (hN : Set.InjOn N.name S) (h : w.cluster.Inside N S) (l : Loading) (k : Bytes) :
    ∃ cut, cut <+: migrations k (w.cluster.held N k) ∧
      (w.load N l).2.cluster.held N k = settle N (w.cluster.held N k) cut := by
  have hstay : ∃ cut, cut <+: migrations k (w.cluster.held N k) ∧
      w.cluster.held N k = settle N (w.cluster.held N k) cut := ⟨[], List.nil_prefix, rfl⟩
  unfold Kube.load
  split_ifs with hloaded hlist
  · exact hstay
  · exact hstay
  · cases readSecrets N w.cluster with
    | none => exact hstay
    | some s =>
      obtain ⟨i, hi, -⟩ := applyAll_take (N := N) (w.cluster.migrations N l.rank) l.ok.tail w.cluster
      refine ⟨_, ?_, (congrArg (Cluster.held N · k) hi).trans (held_foldl_apply hN h
        (fun a ha => migrations_inside h a (List.mem_of_mem_take ha)) k)⟩
      rw [← filter_migrations l.rank]
      exact (List.take_prefix i _).filter _

theorem load_inside (hN : Set.InjOn N.name S) (h : w.cluster.Inside N S) (l : Loading) :
    (w.load N l).2.cluster.Inside N S := by
  intro k hk
  obtain ⟨cut, hcut, hheld⟩ := load_cut hN h l k
  refine h k fun hnone => hk ?_
  rw [hnone, migrations_headless rfl] at hcut
  rw [hheld, List.prefix_nil.mp hcut]
  exact hnone

theorem load_labelled (hN : Set.InjOn N.name S) (h : w.cluster.Inside N S)
    (hl : ∀ k, (w.cluster.held N k).Labelled (N.label k)) (l : Loading) (k : Bytes) :
    ((w.load N l).2.cluster.held N k).Labelled (N.label k) := by
  obtain ⟨cut, hcut, hheld⟩ := load_cut hN h l k
  rw [hheld]
  exact settle_labelled (hl k) fun a ha => (key_of_mem_migrations (hcut.subset ha)).1

theorem load_coherent (hN : Set.InjOn N.name S) (hin : w.cluster.Inside N S) (h : w.Coherent N) (l : Loading) :
    (w.load N l).2.Coherent N := by
  unfold Kube.load
  split_ifs with hloaded hlist
  · exact h
  · exact h
  · cases hread : readSecrets N w.cluster with
    | none => exact h
    | some s =>
      intro hok
      obtain ⟨i, hi, hall⟩ := applyAll_take (N := N) (w.cluster.migrations N l.rank) l.ok.tail w.cluster
      rw [hall hok, List.take_length] at hi
      have hheld : ∀ k, Cluster.held N (applyAll N (w.cluster.migrations N l.rank) l.ok.tail w.cluster).2 k =
          settle N (w.cluster.held N k) (migrations k (w.cluster.held N k)) := by
        intro k
        rw [hi, held_foldl_apply hN hin (migrations_inside hin), filter_migrations]
      refine ⟨fun k hk => ?_, fun k hk => ?_, fun k hk => ?_⟩
      · exact (hheld k).symm ▸ (migration_seen hk _).1
      · change Option.map _ s[k]? = seen (Cluster.held N (Prod.snd _) k)
        rw [hheld, readSecrets_get hread, Cluster.view, hk]
        exact (migration_seen hk _).2
      · change s[k]? = none
        rw [readSecrets_get hread, Cluster.view, hk]
        rfl

theorem load_loaded {l : Loading} (h : (w.load N l).1 = true) : (w.load N l).2.loaded = true := by
  unfold Kube.load at h ⊢
  split_ifs at h ⊢ with hloaded hlist
  · exact hloaded
  · cases hread : readSecrets N w.cluster with
    | none => simp [hread] at h
    | some s => simpa [hread] using h

end Loading

section Reads

variable {N : Naming} {w : Kube}

theorem Agrees.annotated (h : Agrees N w) {k : Bytes} (hk : skipped k = false) {head : Head}
    (hhead : (w.cluster.held N k).head = some head) : head.annotated = ∅ :=
  h.migrated k hk head hhead

theorem Agrees.readable (h : Agrees N w) : ∃ s, readSecrets N w.cluster = some s := by
  refine ⟨_, if_pos ?_⟩
  rw [List.all_eq_true]
  intro k _
  cases hk : skipped k with
  | true => rfl
  | false =>
    cases hhead : (w.cluster.held N k).head with
    | none => rfl
    | some head => simp [Head.decodes, h.annotated hk hhead]

theorem Agrees.no_migrations (h : Agrees N w) (rank : Bytes → Nat) : w.cluster.migrations N rank = [] := by
  rw [Cluster.migrations, List.flatMap_eq_nil_iff]
  intro k _
  unfold migrations
  cases hhead : (w.cluster.held N k).head with
  | none => rfl
  | some head =>
    cases hk : skipped k with
    | true => simp
    | false => simp [h.annotated hk hhead]

theorem Agrees.reads_fresh (h : Agrees N w) : ∃ s, (Kube.fresh w.cluster).reads N = some s ∧
    ∀ k : Bytes, s[k]?.map CachedSecret.shown = w.secrets[k]?.map CachedSecret.shown := by
  obtain ⟨s, hread⟩ := h.readable
  refine ⟨s, ?_, fun k => ?_⟩
  · simp [Kube.reads, Kube.load, Kube.fresh, hread, h.no_migrations, applyAll]
  · rw [readSecrets_get hread, Cluster.view]
    cases hk : skipped k with
    | true => simp [h.ignored k hk]
    | false => exact (cached_shown (h.migrated k hk)).trans (h.same k hk).symm

theorem each_shown {s t : Cache}
    (h : ∀ k : Bytes, s[k]?.map CachedSecret.shown = t[k]?.map CachedSecret.shown) (part : Bytes) :
    s.each part = t.each part := by
  have hall : (s.toList.flatMap fun e => e.2.visit e.1 part) =
      t.toList.flatMap fun e => e.2.visit e.1 part := by
    have hmap : s.map (fun _ c => c.shown) = t.map (fun _ c => c.shown) :=
      Std.ExtTreeMap.ext_getElem? fun k => by
        rw [Std.ExtTreeMap.getElem?_map, Std.ExtTreeMap.getElem?_map, h k]
    have hvisit : ∀ u : Cache, (u.toList.flatMap fun e => e.2.visit e.1 part) =
        (u.map fun _ c => c.shown).toList.flatMap fun e => e.2.visit e.1 part := by
      intro u
      rw [Std.ExtTreeMap.toList_map, List.flatMap_map]
      rfl
    rw [hvisit, hmap, ← hvisit]
  have hone : ∀ k : Bytes, (s[k]?.toList.flatMap fun c => c.visit k part) =
      t[k]?.toList.flatMap fun c => c.visit k part := by
    intro k
    have hvisit : ∀ o : Option CachedSecret, (o.toList.flatMap fun c => c.visit k part) =
        (o.map CachedSecret.shown).toList.flatMap fun c => c.visit k part := by
      intro o
      cases o <;> rfl
    rw [hvisit, h k, ← hvisit]
  unfold Cache.each
  split
  · split_ifs
    · exact hone _
    · exact hall
  · exact hall

theorem reads_unloaded (h : w.loaded = false) : w.reads N = (Kube.fresh w.cluster).reads N := by
  unfold Kube.reads Kube.load Kube.fresh
  rw [h]
  cases readSecrets N w.cluster <;> rfl

theorem Kube.Coherent.reads_alike (h : w.Coherent N) : w.reads N = (Kube.fresh w.cluster).reads N ∨
      ∃ s, w.reads N = some w.secrets ∧ (Kube.fresh w.cluster).reads N = some s ∧
        ∀ k : Bytes, s[k]?.map CachedSecret.shown = w.secrets[k]?.map CachedSecret.shown := by
  cases hloaded : w.loaded with
  | false => exact Or.inl (reads_unloaded hloaded)
  | true =>
    obtain ⟨s, hfresh, hsame⟩ := (h hloaded).reads_fresh
    refine Or.inr ⟨s, ?_, hfresh, hsame⟩
    simp [Kube.reads, Kube.load, hloaded]

theorem Kube.Coherent.get (h : w.Coherent N) (key : Bytes) : w.get N key = (Kube.fresh w.cluster).get N key := by
  unfold Kube.get
  rcases h.reads_alike with heq | ⟨s, hw, hfresh, hsame⟩
  · rw [heq]
  · rw [hw, hfresh]
    have hshown : ∀ {A : Type} (g : CachedSecret → Option A), (∀ c, g c = g c.shown) → ∀ k : Bytes,
        w.secrets[k]?.bind g = s[k]?.bind g := by
      intro A g hg k
      have hbind : ∀ o : Option CachedSecret, o.bind g = (o.map CachedSecret.shown).bind g := by
        intro o
        cases o with
        | none => rfl
        | some c => exact hg c
      rw [hbind, ← hsame k, ← hbind]
    cases parseKey key with
    | none => rfl
    | some k =>
      cases k with
      | secret k | version k n => exact congrArg some (hshown _ (fun _ => rfl) k)

theorem Kube.Coherent.each {A : Type} (h : w.Coherent N) (part : Bytes) (g : List (Bytes × Value) → A) :
    (w.reads N).map (fun s => g (s.each part)) = ((Kube.fresh w.cluster).reads N).map fun s => g (s.each part) := by
  rcases h.reads_alike with heq | ⟨s, hw, hfresh, hsame⟩
  · rw [heq]
  · rw [hw, hfresh, Option.map_some, Option.map_some, each_shown hsame]

end Reads

def Key.kept (value : Written) : Key → Bool
  | .secret k => !skipped k && toValid value.raw == value.raw
  | .version k _ => !skipped k

def KubeCall.Sound (f : Faults) : KubeCall → Prop
  | .put key value => ∀ k ∈ parseKey key, k.kept value = true
  | .delete _ => True
  | .deleteSecretRecords _ _ => f.main = true → f.head = true

instance (f : Faults) : (c : KubeCall) → Decidable (c.Sound f)
  | .put key value => inferInstanceAs (Decidable (∀ k ∈ parseKey key, k.kept value = true))
  | .delete _ => instDecidableTrue
  | .deleteSecretRecords _ _ => inferInstanceAs (Decidable (f.main = true → f.head = true))

def Key.of : Key → Bytes
  | .secret k => k
  | .version k _ => k

def KubeCall.named : KubeCall → List Bytes
  | .put key _ => (parseKey key).toList.map Key.of
  | .delete key => (parseKey key).toList.map Key.of
  | .deleteSecretRecords project id => [cacheKey project id]

section Runs

variable {N : Naming} {S : Set Bytes} {w : Kube}

structure Follows (N : Naming) (S : Set Bytes) (w : Kube) : Prop where
  inside : w.cluster.Inside N S
  labelled : ∀ k, (w.cluster.held N k).Labelled (N.label k)
  coherent : w.Coherent N

theorem Mirrors.follows (h : Mirrors N S w) : Follows N S w := ⟨h.inside, h.labelled, fun _ => h.toAgrees⟩

theorem Follows.loads (h : Follows N S w) (hN : Set.InjOn N.name S) (l : Loading) (act : Kube → Bool × Kube)
    (hact : ∀ w, Mirrors N S w → Mirrors N S (act w).2) :
    Follows N S (match w.load N l with
      | (false, w) => (false, w)
      | (true, w) => act w).2 := by
  have hload : Follows N S (w.load N l).2 :=
    ⟨load_inside hN h.inside l, load_labelled hN h.inside h.labelled l, load_coherent hN h.inside h.coherent l⟩
  split
  · next heq => exact heq ▸ hload
  · next w' heq =>
      have hloaded : w'.loaded = true := by
        have hnow : (w.load N l).1 = true → (w.load N l).2.loaded = true := load_loaded
        rw [heq] at hnow
        exact hnow rfl
      rw [heq] at hload
      exact (hact w' ⟨hload.coherent hloaded, hload.inside, hload.labelled⟩).follows

theorem call_follows (h : Follows N S w) (hN : Set.InjOn N.name S) (hL : Set.InjOn N.label S) (f : Faults)
    {c : KubeCall} (hc : c.Sound f) (hS : ∀ k ∈ c.named, k ∈ S) : Follows N S (Kube.call N f c w).2 := by
  cases c with
  | put key value =>
    unfold Kube.call
    cases hkey : parseKey key with
    | none => simpa [hkey] using h
    | some k =>
      have hkept : k.kept value = true := hc k hkey
      have hk : k.of ∈ S := hS _ (by simp [KubeCall.named, hkey])
      simp only [hkey]
      refine h.loads hN f.load _ fun w' hw' => ?_
      cases k with
      | secret k =>
        simp only [Key.kept, Bool.and_eq_true, Bool.not_eq_true', beq_iff_eq] at hkept
        exact hw'.putSecret hN hk hkept.1 f hkept.2
      | version k n =>
        simp only [Key.kept, Bool.not_eq_true'] at hkept
        exact hw'.putVersion hN hk hkept f value n
  | delete key =>
    unfold Kube.call
    cases hkey : parseKey key with
    | none => simpa [hkey] using h
    | some k =>
      have hk : k.of ∈ S := hS _ (by simp [KubeCall.named, hkey])
      simp only [hkey]
      refine h.loads hN f.load _ fun w' hw' => ?_
      cases k with
      | secret k => exact hw'.deleteSecret hN hk f
      | version k n => exact hw'.deleteVersion hN hk n f
  | deleteSecretRecords project id =>
    refine h.loads hN f.load _ fun w' hw' => hw'.deleteRecords hN hL (hS _ ?_) f hc
    exact List.mem_singleton_self _

def Kube.after (N : Naming) (w : Kube) (calls : List (Faults × KubeCall)) : Kube :=
  calls.foldl (fun w c => (Kube.call N c.1 c.2 w).2) w

theorem after_follows (h : Follows N S w) (hN : Set.InjOn N.name S) (hL : Set.InjOn N.label S)
    {calls : List (Faults × KubeCall)} (hcalls : ∀ c ∈ calls, c.2.Sound c.1 ∧ ∀ k ∈ c.2.named, k ∈ S) :
    Follows N S (w.after N calls) := by
  induction calls generalizing w with
  | nil => exact h
  | cons c calls ih =>
    obtain ⟨⟨hc, hS⟩, hrest⟩ := List.forall_mem_cons.mp hcalls
    exact ih (call_follows h hN hL c.1 hc hS) hrest

def secretsNamed (N : Naming) (cl : Cluster) (calls : List (Faults × KubeCall)) : List Bytes :=
  cl.owners N ++ calls.flatMap fun c => c.2.named

structure Sound (N : Naming) (cl : Cluster) (calls : List (Faults × KubeCall)) : Prop where
  each : ∀ c ∈ calls, c.2.Sound c.1
  names : ∀ k ∈ secretsNamed N cl calls, ∀ k' ∈ secretsNamed N cl calls,
    N.name k = N.name k' ∨ N.label k = N.label k' → k = k'
  labels : ∀ k ∈ cl.owners N, (cl.held N k).Labelled (N.label k)

theorem cache_answers_for_cluster (N : Naming) (cl : Cluster) (calls : List (Faults × KubeCall))
    (hcalls : Sound N cl calls) :
    let w := (Kube.fresh cl).after N calls
    (∀ key, w.get N key = (Kube.fresh w.cluster).get N key) ∧
      (∀ part, w.list N part = (Kube.fresh w.cluster).list N part) ∧
      ∀ part, w.scan N part = (Kube.fresh w.cluster).scan N part := by
  intro w
  have hfresh : Follows N {k | k ∈ secretsNamed N cl calls} (Kube.fresh cl) := by
    refine ⟨fun k hk => ?_, fun k => ?_, fun h => nomatch h⟩
    · by_contra hout
      exact hk (held_of_not_owner fun hmem => hout (List.mem_append_left _ hmem))
    · by_cases hk : k ∈ cl.owners N
      · exact hcalls.labels k hk
      · exact (held_of_not_owner hk).symm ▸ labelled_nothing
  have hw : w.Coherent N := by
    refine (after_follows hfresh (fun k hk k' hk' h => hcalls.names k hk k' hk' (.inl h))
      (fun k hk k' hk' h => hcalls.names k hk k' hk' (.inr h)) fun c hc => ⟨hcalls.each c hc, fun k hk => ?_⟩).coherent
    exact List.mem_append_right _ (List.mem_flatMap.mpr ⟨c, hc, hk⟩)
  refine ⟨hw.get, fun part => ?_, fun part => ?_⟩
  · exact hw.each part fun es => (es.map Prod.fst).insertionSort (· ≤ ·)
  · exact hw.each part fun es => es.foldl (fun (m : Std.ExtTreeMap Bytes Value) e => m.insert e.1 e.2) ∅

end Runs

def plainNames : Naming := ⟨(ascii "cb-secret-" ++ ·), id⟩

def aged (n : Int) (state : VersionState) : Version :=
  ⟨ascii "projects/p/secrets/old/versions/1", n, state, 5, 0, 0, [], 2, 5, [], false⟩

def inherited : Cluster :=
  let none : Std.ExtTreeMap Int (Option Bytes) := ∅
  let head (k : Bytes) (payload : Bytes) : Objects :=
    ⟨some ⟨k, .none, some (ascii "\x7b\x7d"), none.insert 1 (some payload),
      ((∅ : Std.ExtTreeMap Int (Option Version)).insert 1 (some (aged 1 .enabled))).insert 2 (some (aged 2 .destroyed))⟩, ∅⟩
  ((∅ : Cluster).insert (plainNames.name (ascii "p/old")) (head (ascii "p/old") (ascii "pw"))).insert
    (plainNames.name (ascii "p/older")) (head (ascii "p/older") (ascii "x"))

def freshSecret : KubeCall := .put (ascii "secret/p/new") ⟨ascii "\x7b\x7d", none⟩

def mendedCalls : List (Faults × KubeCall) :=
  [({ load := { ok := [true, false] } }, freshSecret), ({}, freshSecret),
    ({ main := false }, .deleteSecretRecords (ascii "p") (ascii "old")),
    ({}, .deleteSecretRecords (ascii "p") (ascii "old"))]

theorem mendedCalls_answer : Sound plainNames inherited mendedCalls ∧
      ∀ key, ((Kube.fresh inherited).after plainNames mendedCalls).get plainNames key =
        (Kube.fresh ((Kube.fresh inherited).after plainNames mendedCalls).cluster).get plainNames key :=
  have hsound : Sound plainNames inherited mendedCalls :=
    ⟨by decide +kernel, by decide +kernel, by decide +kernel⟩
  ⟨hsound, (cache_answers_for_cluster plainNames inherited mendedCalls hsound).1⟩

theorem interrupted_deletion_answers :
    let calls : List (Faults × KubeCall) :=
      [({}, freshSecret), ({ head := false }, .deleteSecretRecords (ascii "p") (ascii "new"))]
    let w := (Kube.fresh ∅).after plainNames calls
    w.get plainNames (ascii "secret/p/new") = some (some (.secret (ascii "\x7b\x7d"))) ∧
      (Kube.fresh w.cluster).get plainNames (ascii "secret/p/new") = some none := by
  decide +kernel

end CloudBurrow.Secrets
