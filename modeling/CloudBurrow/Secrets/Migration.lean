import CloudBurrow.Secrets.KubeRuns

namespace CloudBurrow.Secrets

open Utf8

def OldLayout (N : Naming) (cl : Cluster) : Prop :=
  ∀ (name : Bytes) o, cl[name]? = some o → o.versions = ∅ ∧
    ∀ h, o.head = some h → N.name h.owner = name ∧ skipped h.owner = false

def Cluster.oldValue (N : Naming) (cl : Cluster) : Key → Option Value
  | .secret k => ((cl.held N k).head.bind fun h => h.metaJSON.map toValid).map .secret
  | .version k n =>
    (cl.held N k).head.bind fun h =>
      (h.annotated[n]?.bind fun metadata => versionValue metadata h.data[n]?).map .version

structure Attempt where
  restart : Bool
  load : Loading

def Kube.attempt (N : Naming) (w : Kube) (a : Attempt) : Kube :=
  ((if a.restart then Kube.fresh w.cluster else w).load N a.load).2

def Kube.attempts (N : Naming) (w : Kube) (as : List Attempt) : Kube := as.foldl (Kube.attempt N) w

section Cut

theorem union_insert {old own : Std.ExtTreeMap Int Version} {n : Int} {v : Version}
    (h : (old ∪ own)[n]? = some v) : old ∪ own.insert n v = old ∪ own := by
  refine Std.ExtTreeMap.ext_getElem? fun i => ?_
  rw [Std.ExtTreeMap.getElem?_union, Std.ExtTreeMap.getElem?_insert]
  split_ifs with hi
  · rw [← Std.LawfulEqCmp.eq_of_compare hi, h]
    rfl
  · rw [Std.ExtTreeMap.getElem?_union]

theorem union_insertMany {old own : Std.ExtTreeMap Int Version} {es : List (Int × Version)}
    (h : ∀ e ∈ es, (old ∪ own)[e.1]? = some e.2) : old ∪ own.insertMany es = old ∪ own := by
  induction es generalizing own with
  | nil => simp
  | cons e es ih =>
    obtain ⟨hfirst, hrest⟩ := List.forall_mem_cons.mp h
    have hsame := union_insert hfirst
    rw [Std.ExtTreeMap.insertMany_cons, ih, hsame]
    rw [hsame]
    exact hrest

variable {N : Naming} {k : Bytes}

theorem cached_versions {o : Objects} {h : Head} (hhead : o.head = some h) {es : List (Int × Version)}
    (hes : ∀ e ∈ es, (h.old ∪ o.own)[e.1]? = some e.2) :
    (settle N o (es.map fun e => .version k e.1 e.2)).cached = o.cached := by
  obtain ⟨hkept, hown⟩ := settle_versions N k o es
  rw [Objects.cached, Objects.cached, hkept, hhead, hown]
  dsimp only
  rw [union_insertMany hes]

theorem added_shown {h : Head} {o : Objects} {e : Int × Version}
    (he : e ∈ (h.old.filter fun n _ => !o.own.contains n).toList) : (h.old ∪ o.own)[e.1]? = some e.2 := by
  have hget := Std.ExtTreeMap.mem_toList_iff_getElem?_eq_some.mp he
  rw [Std.ExtTreeMap.getElem?_filter', Option.filter_eq_some_iff] at hget
  have hnew : o.own.contains e.1 = false := by simpa using hget.2
  rw [Std.ExtTreeMap.getElem?_union, Std.ExtTreeMap.getElem?_eq_none_of_contains_eq_false hnew, hget.1]
  rfl

theorem cut_shown (hk : skipped k = false) (o : Objects) {cut : List Apply} (hcut : cut <+: migrations k o) :
    (settle N o cut).cached.map CachedSecret.shown = o.cached.map CachedSecret.shown := by
  have hnothing : migrations k o = [] → cut = [] := fun hnil => List.prefix_nil.mp (hnil ▸ hcut)
  cases hhead : o.head with
  | none =>
    rw [hnothing (migrations_headless hhead)]
    rfl
  | some h =>
    by_cases hann : h.annotated = ∅
    · rw [hnothing (by simp [migrations, hhead, hann])]
      rfl
    · rw [migrations_eq hk hhead hann, List.prefix_concat_iff] at hcut
      rcases hcut with hfull | hversions
      · obtain ⟨hmigrated, hseen⟩ := migration_seen (N := N) hk o
        rw [hfull, ← migrations_eq hk hhead hann, cached_shown hmigrated, hseen]
      · rw [List.prefix_iff_eq_take.mp hversions, ← List.map_take, cached_versions hhead]
        exact fun e he => added_shown (List.mem_of_mem_take he)

end Cut

def Shows (N : Naming) (cl cl' : Cluster) : Prop :=
  ∀ k, (cl'.view N k).map CachedSecret.shown = (cl.view N k).map CachedSecret.shown

def Placed (N : Naming) (cl : Cluster) : Prop :=
  ∀ (name : Bytes) o h, cl[name]? = some o → o.head = some h → N.name h.owner = name ∧ skipped h.owner = false

def Cluster.kept (N : Naming) (cl : Cluster) : Set Bytes := {k | cl.held N k ≠ .nothing}

section Attempts

variable {N : Naming} {cl : Cluster} {w : Kube}

theorem OldLayout.placed (h : OldLayout N cl) : Placed N cl := fun name o head hget hhead => (h name o hget).2 head hhead

theorem OldLayout.injOn (h : OldLayout N cl) : Set.InjOn N.name (cl.kept N) := by
  have hhead : ∀ k ∈ cl.kept N, ∃ o head, cl[N.name k]? = some o ∧ o.head = some head ∧ head.owner = k := by
    intro k hk
    by_contra hnone
    refine hk ?_
    rw [Cluster.held]
    cases hget : cl[N.name k]? with
    | none => exact nothing_of k
    | some o =>
      refine of_nothing_iff.mpr ⟨fun head hh hown => hnone ⟨o, head, hget, hh, hown⟩, fun n s hs => ?_⟩
      simp [(h _ o hget).1] at hs
  intro k hk k' hk' hname
  obtain ⟨o, head, hget, hh, rfl⟩ := hhead k hk
  obtain ⟨o', head', hget', hh', rfl⟩ := hhead k' hk'
  rw [hname, hget'] at hget
  cases hget
  rw [hh] at hh'
  cases hh'
  rfl

theorem Placed.apply (h : Placed N cl) {a : Apply} (ha : skipped a.key = false) : Placed N (cl.apply N a) := by
  intro name o head hget hhead
  rw [Cluster.apply, Std.ExtTreeMap.getElem?_insert] at hget
  split_ifs at hget with hname
  · cases hget
    cases a with
    | head k m l =>
      cases hhead
      exact (valid_of_read ha).symm ▸ ⟨Std.LawfulEqCmp.eq_of_compare hname, ha⟩
    | version k n v =>
      rw [← Std.LawfulEqCmp.eq_of_compare hname]
      cases hat : cl[N.name k]? with
      | none => simp [Apply.slot, Apply.key, hat, Objects.nothing] at hhead
      | some o' =>
        simp only [Apply.slot, Apply.key, hat, Option.getD_some] at hhead
        exact h _ o' head hat hhead
  · exact h name o head hget hhead

theorem Placed.load (h : Placed N w.cluster) (l : Loading) : Placed N (w.load N l).2.cluster := by
  unfold Kube.load
  split_ifs with hloaded hlist
  · exact h
  · exact h
  · cases readSecrets N w.cluster with
    | none => exact h
    | some s =>
      obtain ⟨i, hi, -⟩ := applyAll_take (N := N) (w.cluster.migrations N l.rank) l.ok.tail w.cluster
      dsimp only
      rw [hi]
      refine List.foldlRecOn _ _ h fun cl' hcl' a ha => hcl'.apply ?_
      obtain ⟨k, -, hk⟩ := List.mem_flatMap.mp (List.mem_of_mem_take ha)
      obtain ⟨rfl, hread⟩ := key_of_mem_migrations hk
      exact hread

structure Underway (N : Naming) (cl : Cluster) (w : Kube) : Prop where
  coherent : w.Coherent N
  shows : Shows N cl w.cluster
  placed : Placed N w.cluster
  inside : w.cluster.Inside N (cl.kept N)

theorem load_shows (hold : OldLayout N cl) (hin : w.cluster.Inside N (cl.kept N)) (h : Shows N cl w.cluster) (l : Loading) :
    Shows N cl (w.load N l).2.cluster := by
  intro k
  obtain ⟨cut, hcut, hheld⟩ := load_cut hold.injOn hin l k
  rw [← h k, Cluster.view, Cluster.view, hheld]
  cases hk : skipped k with
  | true => rfl
  | false => exact cut_shown hk _ hcut

theorem underway_fresh (hold : OldLayout N cl) : Underway N cl (Kube.fresh cl) :=
  ⟨(fun hloaded => by cases hloaded), fun _ => rfl, hold.placed, fun _ hk => hk⟩

theorem Underway.load (hold : OldLayout N cl) (h : Underway N cl w) (l : Loading) : Underway N cl (w.load N l).2 :=
  ⟨load_coherent hold.injOn h.inside h.coherent l, load_shows hold h.inside h.shows l, h.placed.load l,
    load_inside hold.injOn h.inside l⟩

theorem Underway.restart (h : Underway N cl w) : Underway N cl (Kube.fresh w.cluster) :=
  ⟨(fun hloaded => by cases hloaded), h.shows, h.placed, h.inside⟩

theorem Underway.attempt (hold : OldLayout N cl) (h : Underway N cl w) (a : Attempt) : Underway N cl (w.attempt N a) := by
  unfold Kube.attempt
  cases a.restart with
  | true => exact h.restart.load hold a.load
  | false => exact h.load hold a.load

theorem Underway.attempts (hold : OldLayout N cl) (h : Underway N cl w) (as : List Attempt) :
    Underway N cl (w.attempts N as) := by
  induction as generalizing w with
  | nil => exact h
  | cons a as ih => exact ih (h.attempt hold a)

theorem load_quiet (h : ∀ rank, w.cluster.migrations N rank = []) (l : Loading) :
    (w.load N l).2.cluster = w.cluster := by
  unfold Kube.load
  split_ifs with hloaded hlist
  · rfl
  · rfl
  · cases hread : readSecrets N w.cluster with
    | none => rfl
    | some s => simp only [h, applyAll]

theorem attempts_quiet (h : ∀ rank, w.cluster.migrations N rank = []) (as : List Attempt) :
    (w.attempts N as).cluster = w.cluster := by
  induction as generalizing w with
  | nil => rfl
  | cons a as ih =>
    have hstep : (w.attempt N a).cluster = w.cluster := by
      unfold Kube.attempt
      cases a.restart with
      | true =>
        have hfresh := load_quiet (w := Kube.fresh w.cluster) h a.load
        exact hfresh
      | false => exact load_quiet h a.load
    have hrest := ih (hstep.symm ▸ h)
    exact hrest.trans hstep

theorem Underway.cached (h : Underway N cl w) (hloaded : w.loaded = true) (k : Bytes) :
    w.secrets[k]?.map CachedSecret.shown = (cl.view N k).map CachedSecret.shown := by
  have hagrees := h.coherent hloaded
  rw [← h.shows k, Cluster.view]
  cases hk : skipped k with
  | true =>
    rw [hagrees.ignored k hk]
    rfl
  | false => exact (hagrees.same k hk).trans (cached_shown (hagrees.migrated k hk)).symm

end Attempts

section Values
variable {N : Naming} {cl : Cluster} {c : CachedSecret}

def CachedSecret.secretValue (c : CachedSecret) : Option Value := c.metaJSON.map .secret

def CachedSecret.numbered (c : CachedSecret) (n : Int) : Option Value := c.versions[n]?.map .version

theorem held_old (h : OldLayout N cl) (k : Bytes) : (cl.held N k).own = ∅ ∧ (skipped k = true → (cl.held N k).head = none) := by
  rw [Cluster.held]
  cases hget : cl[N.name k]? with
  | none => exact ⟨by rw [Option.getD_none, nothing_of, own_nothing], fun _ => by rw [Option.getD_none, nothing_of]; rfl⟩
  | some o =>
    obtain ⟨hversions, hheads⟩ := h _ o hget
    refine ⟨Std.ExtTreeMap.ext_getElem? fun n => ?_, fun hk => ?_⟩
    · simp [Objects.own, Objects.of, hversions]
    · refine Option.filter_eq_none_iff.mpr fun head hh hown => ?_
      rw [decide_eq_true_eq] at hown
      rw [← hown, (hheads head hh).2] at hk
      cases hk

theorem view_old (h : OldLayout N cl) (k : Bytes) :
    ((cl.view N k).map CachedSecret.shown).bind CachedSecret.secretValue = cl.oldValue N (.secret k) ∧
      ∀ n, ((cl.view N k).map CachedSecret.shown).bind (·.numbered n) = cl.oldValue N (.version k n) := by
  obtain ⟨hown, hskip⟩ := held_old h k
  unfold Cluster.view Cluster.oldValue
  cases hhead : (cl.held N k).head with
  | none => simp [Objects.cached, hhead, hown]
  | some head =>
    have hk : skipped k = false := by
      by_contra hk
      rw [hskip (Bool.eq_true_of_not_eq_false hk)] at hhead
      cases hhead
    have hunion : ∀ n : Int, (head.old ∪ (cl.held N k).own)[n]? =
        head.annotated[n]?.bind fun metadata => versionValue metadata head.data[n]? := by
      intro n
      rw [Std.ExtTreeMap.getElem?_union, hown, Head.old, Std.ExtTreeMap.getElem?_filterMap']
      simp
    refine ⟨?_, fun n => ?_⟩
    · simp [Objects.cached, hhead, hk, CachedSecret.shown, CachedSecret.secretValue]
    · simp [Objects.cached, hhead, hk, CachedSecret.shown, CachedSecret.numbered, hunion, Option.map_bind]

end Values

theorem migration_loses_nothing (N : Naming) (cl : Cluster) (hold : OldLayout N cl) (as : List Attempt) (l : Loading)
    (hdone : (((Kube.fresh cl).attempts N as).load N l).1 = true) :
    let w := (((Kube.fresh cl).attempts N as).load N l).2
    (∀ key, w.get N key = (parseKey key).map (cl.oldValue N)) ∧
      (∀ (name : Bytes) o h, w.cluster[name]? = some o → o.head = some h → h.annotated = ∅) ∧
      ∀ later, (w.attempts N later).cluster = w.cluster ∧ ∀ key, (w.attempts N later).get N key = w.get N key := by
  intro w
  have hunder : Underway N cl w := ((underway_fresh hold).attempts hold as).load hold l
  have hloaded : w.loaded = true := load_loaded hdone
  have hagrees : Agrees N w := hunder.coherent hloaded
  refine ⟨fun key => ?_, fun name o h hat hhead => ?_, fun later => ?_⟩
  · have hreads : w.reads N = some w.secrets := by simp [Kube.reads, Kube.load, hloaded]
    unfold Kube.get
    rw [hreads]
    cases parseKey key with
    | none => rfl
    | some key =>
      cases key with
      | secret k =>
        rw [Option.map_some, ← (view_old hold k).1, ← hunder.cached hloaded k]
        change some (w.secrets[k]?.bind CachedSecret.secretValue) = _
        cases w.secrets[k]? <;> rfl
      | version k n =>
        rw [Option.map_some, ← (view_old hold k).2 n, ← hunder.cached hloaded k]
        change some (w.secrets[k]?.bind (·.numbered n)) = _
        cases w.secrets[k]? <;> rfl
  · obtain ⟨hname, hk⟩ := hunder.placed name o h hat hhead
    refine hagrees.migrated h.owner hk h ?_
    simp [Cluster.held, hname, hat, Objects.of, hhead]
  · have hcluster := attempts_quiet hagrees.no_migrations later
    refine ⟨hcluster, fun key => ?_⟩
    rw [(hunder.attempts hold later).coherent.get, hcluster, hunder.coherent.get]

def cutShort : List Attempt := [⟨false, { ok := [true, false] }⟩, ⟨true, { ok := [true, true, true, false], rank := List.length }⟩]

theorem inherited_old : OldLayout plainNames inherited := by
  intro name o hat
  rw [inherited, Std.ExtTreeMap.getElem?_insert, Std.ExtTreeMap.getElem?_insert] at hat
  split_ifs at hat with hlater hfirst
  · cases hat
    refine ⟨rfl, fun h hh => ?_⟩
    cases hh
    exact ⟨Std.LawfulEqCmp.eq_of_compare hlater, by decide⟩
  · cases hat
    refine ⟨rfl, fun h hh => ?_⟩
    cases hh
    exact ⟨Std.LawfulEqCmp.eq_of_compare hfirst, by decide⟩
  · simp at hat

theorem migration_loses_nothing_inherited :
    (((Kube.fresh inherited).attempts plainNames cutShort).load plainNames {}).1 = true ∧
      ∀ key, (((Kube.fresh inherited).attempts plainNames cutShort).load plainNames {}).2.get plainNames key =
        (parseKey key).map (inherited.oldValue plainNames) := by
  have hdone : (((Kube.fresh inherited).attempts plainNames cutShort).load plainNames {}).1 = true := by
    decide +kernel
  exact ⟨hdone, (migration_loses_nothing plainNames inherited inherited_old cutShort {} hdone).1⟩

end CloudBurrow.Secrets
