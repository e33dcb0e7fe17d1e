import CloudBurrow.Storage.Protection
import CloudBurrow.Storage.Sweeping

namespace CloudBurrow.Storage

open Utf8 Transaction Interleaving

section BulkRestore

def Bare (key : Bytes) (tx : Tx) : Prop :=
  Recoded tx.store ∧ Shelf.softdeleted.read tx.store key = []

variable {A : Type} {b : BucketRecord} {name other : Bytes} {now : Time}

theorem bare_emptied {m : Action A} {key : Bytes} (hrecoded : Recodes m)
    (hread : ∀ tx, Recoded tx.store → Shelf.softdeleted.read (m tx).2.store key =
      Shelf.softdeleted.read tx.store key) : Moves (Keeping (Bare key)) m :=
  fun tx hbare => ⟨hrecoded tx hbare.1, (hread tx hbare.1).trans hbare.2⟩

theorem read_discarded (hne : name ≠ other) (cur : ObjectRecord) (hname : cur.name = name) (s : Store) :
    Shelf.softdeleted.read (discarded b cur now s) (objectKey b.name other) =
      Shelf.softdeleted.read s (objectKey b.name other) := by
  unfold discarded
  split_ifs
  · rfl
  · rw [hname]
    exact Shelf.read_write_key _ _ _ fun hkey => hne (objectKey_name_inj hkey)

theorem read_retireLive (hne : name ≠ other) (hvalid : Valid name) (g : Int) {tx : Tx}
    (h : Recoded tx.store) :
    Shelf.softdeleted.read (retireLive b name now g tx).2.store (objectKey b.name other) =
      Shelf.softdeleted.read tx.store (objectKey b.name other) := by
  rcases retireLive_cases b name now g tx with ⟨-, hrun⟩ | ⟨e, hrun⟩ | ⟨cur, hcur, -, tx', hrun, hbeside⟩ <;> rw [hrun]
  have hname : cur.name = name := by
    obtain ⟨hfiled, nm, hkey, hnm⟩ := h.live _ cur hcur
    rw [hnm, ← (objectKey_inj b.named.1 hfiled.bucket.1 hkey).2, toValid_of_valid _ hvalid]
  rw [Shelf.read_congr _ .softdeleted (hbeside.store .softdeleted (by decide))]
  have hdelete : ∀ s : Store, Shelf.softdeleted.read (s.delete .object (objectKey b.name name))
      (objectKey b.name other) = Shelf.softdeleted.read s (objectKey b.name other) :=
    fun s => Shelf.read_congr s .softdeleted (Store.delete_other s (by simp [Shelf.kind]) _)
  dsimp only [retired]
  split_ifs
  · rw [Shelf.read_write_shelf _ _ _ (by simp)]
    exact hdelete _
  · rw [read_discarded hne cur hname]
    exact hdelete _

theorem bare_unsoften (hne : name ≠ other) (keep : ObjectRecord → Bool) :
    Moves (Keeping (Bare (objectKey b.name other))) (do
      let vs ← getSoftDeleted b.name name
      putSoftDeleted b.name name (vs.filter keep)) := by
  have hkey : objectKey b.name name ≠ objectKey b.name other :=
    fun hkey => hne (objectKey_name_inj hkey)
  refine bare_emptied (recodes_unsoften _ _ _) fun tx _ => ?_
  rw [unsoften_run]
  exact Shelf.read_write_key tx.store .softdeleted _ hkey

theorem bare_finalized {o : ObjectRecord} (ho : BucketName o.bucket) (cur : Option ObjectRecord)
    {key : Bytes} : Moves (Keeping (Bare key)) (finalized o cur now) := by
  refine bare_emptied (recodes_finalized ho _ _) fun tx _ => ?_
  obtain ⟨tx', hrun, hbeside⟩ := finalized_run o cur now tx
  rw [hrun, Shelf.read_congr _ .softdeleted (hbeside.store .softdeleted (by decide))]
  have hkept : stored tx.store o Shelf.softdeleted.kind = tx.store Shelf.softdeleted.kind :=
    Store.put_other _ (by simp [Shelf.kind]) _ _
  exact Shelf.read_congr tx.store .softdeleted hkept

theorem bare_restoreSoft {soft : ObjectRecord} (hsoft : Filed soft) (hne : soft.name ≠ other)
    (cur : Option ObjectRecord) :
    Moves (Keeping (Bare (objectKey b.name other))) (restoreSoft b soft cur now) := by
  refine Keeping.bind (moves_ofExcept _) (fun _ _ _ _ => ofExcept_ok) fun o ho => ?_
  have hbucket : BucketName o.bucket := by
    rw [(sameVersion_checkNewObject ho).bucket]
    exact hsoft.bucket
  have hvalid : Valid soft.name := toValid_eq_self.mp (congrArg ObjectRecord.name hsoft.recode)
  have hdraw : Moves (Keeping (Bare (objectKey b.name other))) nextGeneration :=
    bare_emptied recodes_draw fun _ _ => rfl
  have hretire : ∀ g, Moves (Keeping (Bare (objectKey b.name other))) (retireLive b soft.name now g) :=
    fun g => bare_emptied (recodes_retireLive _ _ _ _) fun _ h => read_retireLive hne hvalid g h
  refine moves_assoc (bare_unsoften hne _) fun _ => moves_bind hdraw fun g => ?_
  refine moves_bind (hretire g) fun _ => ?_
  have hrestored : BucketName (restoredRecord o g now).bucket := hbucket
  exact moves_bind (bare_finalized hrestored _) fun _ => moves_pure _

theorem bare_bulkRestoreName (hne : name ≠ other) (f : BulkRestoreFilter) (n : BulkRestoreCounts) :
    Moves (Keeping (Bare (objectKey b.name other))) (bulkRestoreName b name f n now) := by
  refine Keeping.bind (P := fun vs => ∀ o ∈ vs, Filed o ∧ o.name = name)
    (moves_read_bind fun _ => moves_pure _) (fun tx vs tx' hbare hrun o ho => ?_)
    fun vs hvs => ?_
  · cases hrun
    have hmem := mem_byGeneration.mp (List.mem_of_mem_filter ho)
    obtain ⟨hfiled, b', hb', hkey⟩ := hbare.1.soft _ o hmem
    exact ⟨hfiled, (objectKey_inj b.named.1 hb' hkey).2.symm⟩
  · cases hpick : f.pick vs with
    | none => exact moves_pure _
    | some soft =>
      obtain ⟨hfiled, hname⟩ := hvs soft (BulkRestoreFilter.pick_mem hpick)
      refine moves_read_bind fun cur => ?_
      split_ifs
      · exact moves_pure _
      · have hattempt : Moves (Keeping (Bare (objectKey b.name other)))
            (Txn.attempt (restoreSoft b soft cur now)) :=
          bare_restoreSoft hfiled (hname ▸ hne) cur
        refine moves_bind hattempt fun r => ?_
        cases r <;> exact moves_pure _

theorem bulkRestoreName_bare {tx : Tx} (h : Bare (objectKey b.name name) tx) (f : BulkRestoreFilter)
    (n : BulkRestoreCounts) : bulkRestoreName b name f n now tx = (.ok n, tx) := by
  have hvs : softVersions b name now tx = (.ok [], tx) := by
    have hrun : softVersions b name now tx = (.ok ((byGeneration (Shelf.softdeleted.read tx.store
      (objectKey b.name name))).filter (restorable b now)), tx) := rfl
    rw [hrun, h.2]
    rfl
  rw [bulkRestoreName, Txn.bind_ok hvs]
  rfl

theorem bulkRestoreNames_bare {names : List Bytes} (hnames : names.Nodup) {kept : Bytes → Bool}
    (f : BulkRestoreFilter) (n : BulkRestoreCounts) {tx : Tx}
    (h : ∀ name ∈ names, kept name = false → Bare (objectKey b.name name) tx) :
    bulkRestoreNames b f now (names.filter kept) n tx = bulkRestoreNames b f now names n tx := by
  induction names generalizing n tx with
  | nil => rfl
  | cons name names ih =>
    obtain ⟨hfresh, hnames⟩ := List.nodup_cons.mp hnames
    have hrest := fun other hmem => h other (List.mem_cons_of_mem name hmem)
    cases hkept : kept name with
    | false =>
      have hskip : bulkRestoreName b name f n now tx = (.ok n, tx) :=
        bulkRestoreName_bare (h name List.mem_cons_self hkept) f n
      rw [List.filter_cons_of_neg (by simp [hkept]), ih hnames n hrest]
      exact (Txn.bind_ok hskip).symm
    | true =>
      rw [List.filter_cons_of_pos hkept]
      have hrun : ∀ names, bulkRestoreNames b f now (name :: names) n =
        (bulkRestoreName b name f n now >>= fun n => bulkRestoreNames b f now names n) := fun _ => rfl
      rw [hrun, hrun, Txn.run_bind, Txn.run_bind]
      rcases hstep : bulkRestoreName b name f n now tx with ⟨r, tx'⟩
      cases r with
      | error e => rfl
      | ok n' =>
        refine ih hnames n' fun other hmem hdropped => ?_
        have hne : name ≠ other := fun heq => hfresh (heq ▸ hmem)
        have hmoves : Moves (Keeping (Bare (objectKey b.name other)))
            (bulkRestoreName b name f n now) := bare_bulkRestoreName hne f n
        have hbare := hmoves tx (hrest other hmem hdropped)
        rw [hstep] at hbare
        exact hbare

end BulkRestore

section Names

def expired (s : Store) (t : Time) (bucket name : Bytes) : Bool :=
  let vs := Shelf.softdeleted.read s (objectKey bucket name)
  !vs.isEmpty && vs.all fun v => !lasting t v

variable {t now : Time} {tx tx' : Tx} {bucket name : Bytes}

theorem sweptShelf_eq_none {vs : List ObjectRecord} :
    sweptShelf t (some vs) = none ↔ (!vs.isEmpty && vs.all fun v => !lasting t v) = true := by
  have hall : vs.filter (lasting t) = [] ↔ (vs.all fun v => !lasting t v) = true := by
    simp [List.filter_eq_nil_iff]
  rw [Bool.and_eq_true, ← hall]
  simp only [sweptShelf, Option.bind_some]
  split_ifs with hlen hnone
  · have hempty : vs.filter (lasting t) = [] → vs = [] := fun hnil => by
      rw [hnil] at hlen
      exact List.length_eq_zero_iff.mp hlen.symm
    simp only [false_iff, not_and]
    exact fun hne hnil => by simp [hempty hnil] at hne
  · have hne : vs ≠ [] := by
      rintro rfl
      exact hlen rfl
    simpa [hnone] using hne
  · simp [hnone]

theorem Sweeps.stays (h : Sweeps t tx tx') {vs : List ObjectRecord}
    (hvs : tx.store.get .softdeleted (objectKey bucket name) = some vs) :
    (∃ vs', tx'.store.get .softdeleted (objectKey bucket name) = some vs') ↔
      expired tx.store t bucket name = false := by
  have hread : Shelf.softdeleted.read tx.store (objectKey bucket name) = vs :=
    congrArg (Option.getD · []) hvs
  rw [h.soft, hvs, expired, hread, ← Bool.not_eq_true, ← sweptShelf_eq_none, ← Option.isSome_iff_exists,
    ← Option.ne_none_iff_isSome]

theorem Sweeps.names (h : Sweeps t tx tx') (bucket start : Bytes) :
    namesOf tx'.store .softdeleted bucket start =
      (namesOf tx.store .softdeleted bucket start).filter fun name =>
        !expired tx.store t bucket name := by
  refine eq_of_ascending (ascending_namesOf _ _ _ _) ((ascending_namesOf _ _ _ _).filter _) ?_
  intro name
  rw [List.mem_filter, mem_namesOf, mem_namesOf, Bool.not_eq_true']
  constructor
  · rintro ⟨hstart, vs', hvs'⟩
    cases hvs : tx.store.get .softdeleted (objectKey bucket name) with
    | none =>
      rw [h.soft, hvs] at hvs'
      cases hvs'
    | some vs => exact ⟨⟨hstart, vs, rfl⟩, (h.stays hvs).mp ⟨vs', hvs'⟩⟩
  · rintro ⟨⟨hstart, vs, hvs⟩, hlasts⟩
    exact ⟨hstart, (h.stays hvs).mpr hlasts⟩

theorem Sweeps.bare (h : Sweeps t tx tx') (hr : Recoded tx'.store) {start : Bytes}
    (hlisted : name ∈ namesOf tx.store .softdeleted bucket start)
    (hexpired : expired tx.store t bucket name = true) : Bare (objectKey bucket name) tx' := by
  obtain ⟨-, vs, hvs⟩ := mem_namesOf.mp hlisted
  refine ⟨hr, ?_⟩
  cases hvs' : tx'.store.get .softdeleted (objectKey bucket name) with
  | none => exact congrArg (Option.getD · []) hvs'
  | some vs' =>
    rw [(h.stays hvs).mp ⟨vs', hvs'⟩] at hexpired
    cases hexpired

theorem Sweeps.bulkRestore (h : Sweeps t tx tx') (hr : Recoded tx.store) (hr' : Recoded tx'.store)
    (hle : t ≤ now) (r : BulkRestoreCall) :
    (objectsBulkRestore r now tx').1 = (objectsBulkRestore r now tx).1 := by
  have hfaded := h.faded hr
  have hbucket := hfaded.get (k := .bucket) (by simp) (by simp) r.bucket
  cases hb : tx.store.get .bucket r.bucket with
  | none =>
    rw [hb] at hbucket
    rw [objectsBulkRestore, existingBucket_none_bind hb, existingBucket_none_bind hbucket]
  | some b =>
    rw [hb] at hbucket
    have hname : b.name = r.bucket := hr.bucket _ _ hb
    let names := namesOf tx.store .softdeleted r.bucket []
    let rest (n : BulkRestoreCounts) : Action BulkRestoreCounts := do
      putOperation
        { bucket := r.bucket, id := r.operation, type := .bulkRestoreObjects, created := now,
          ended := now, restore := some n }
      pure n
    have hrun : ∀ tx : Tx, tx.store.get .bucket r.bucket = some b → objectsBulkRestore r now tx =
        (bulkRestoreNames b r.filter now (namesOf tx.store .softdeleted r.bucket []) {} >>= rest) tx := by
      intro tx hb
      rw [objectsBulkRestore, existingBucket_some_bind hb, Txn.bind_ok (namesIn_run _ _ _ _)]
    have hskip : bulkRestoreNames b r.filter now (namesOf tx'.store .softdeleted r.bucket []) {} tx' =
        bulkRestoreNames b r.filter now names {} tx' := by
      rw [h.names]
      refine bulkRestoreNames_bare (nodup_of_ascending (ascending_namesOf _ _ _ _)) _ _ fun name hmem hexpired => ?_
      rw [hname]
      exact h.bare hr' hmem (by simpa using hexpired)
    have hagrees : Agrees (Faded t) (bulkRestoreNames b r.filter now names {} >>= rest) := by
      refine agrees_bind (agrees_bulkRestoreNames hle b _ _ _) fun n => ?_
      exact agrees_bind (agrees_put (by simp) (by simp) _ _) fun _ => agrees_pure n
    rw [hrun tx hb, hrun tx' hbucket, ← (hagrees tx tx' hfaded).1, Txn.run_bind, Txn.run_bind, hskip]

end Names

section Listings

def ListState.mark (st : ListState) (p : Bytes) : ListState :=
  { st with prefixes := st.prefixes ++ [p], last := { after := p, folded := true } }

variable {r : ListCall} {versions : Bytes → List ObjectRecord} {name : Bytes} {names : List Bytes}
  {st : ListState}

theorem visit_skip (h : (r.skips name || !r.select.inRange name) = true) :
    r.visit versions (name :: names) st = r.visit versions names st := by
  rw [ListCall.visit, if_pos h]

theorem visit_quiet (h : (r.skips name || !r.select.inRange name) = false)
    (hp : r.select.fold name = [] ∨ r.select.fold name ∈ st.prefixes)
    (hvs : (if r.select.itemOf name (r.select.fold name) then r.shows name (versions name) else []) = []) :
    r.visit versions (name :: names) st = r.visit versions names st := by
  have hmarks : (decide (r.select.fold name ≠ []) && decide (r.select.fold name ∉ st.prefixes)) = false := by
    rcases hp with hp | hp <;> simp [hp]
  rw [ListCall.visit]
  simp only [h, hmarks, hvs]
  rfl

theorem visit_mark (h : (r.skips name || !r.select.inRange name) = false)
    (hp : r.select.fold name ≠ []) (hnew : r.select.fold name ∉ st.prefixes)
    (hvs : (if r.select.itemOf name (r.select.fold name) then r.shows name (versions name) else []) = []) :
    r.visit versions (name :: names) st =
      if r.limit < st.size + 1 then st.cut else r.visit versions names (st.mark (r.select.fold name)) := by
  have hmarks : (decide (r.select.fold name ≠ []) && decide (r.select.fold name ∉ st.prefixes)) = true := by
    simp [hp, hnew]
  rw [ListCall.visit]
  simp only [h, hmarks, hvs]
  rfl

theorem not_skips_later {n n' : Bytes} (h : r.skips n = false) (hlt : n < n') (hpre : ¬ n <+: n') :
    r.skips n' = false := by
  by_contra hskip
  rw [Bool.not_eq_false, ListCall.skips, Bool.and_eq_true, Bool.and_eq_true, Bool.or_eq_true,
    Bool.and_eq_true, List.isPrefixOf_iff_prefix, decide_eq_true_eq] at hskip
  obtain ⟨⟨hafter, -⟩, hpast⟩ := hskip
  by_cases hresumes : r.resumes n = true
  · have hn : n = r.token.after := by
      rw [ListCall.resumes, Bool.and_eq_true, Bool.and_eq_true, decide_eq_true_eq] at hresumes
      simpa using hresumes.1.2
    rcases hpast with hle | ⟨-, hfolded⟩
    · exact absurd (hn ▸ hlt) (by simpa using hle)
    · exact hpre (hn ▸ hfolded)
  · have hnow : r.token.after < n ∧ ¬ (r.token.folded = true ∧ r.token.after <+: n) := by
      rw [ListCall.skips] at h
      simpa [hafter, hresumes, ← List.isPrefixOf_iff_prefix] using h
    rcases hpast with hle | ⟨hfold, hfolded⟩
    · exact absurd (List.lt_trans hnow.1 hlt) (by simpa using hle)
    · exact hnow.2 ⟨hfold, isPrefix_between List.prefix_rfl hfolded hnow.1 hlt⟩

theorem visit_shared {n n' : Bytes} (hn : r.select.namePrefix <+: n) (hp : r.select.fold n ≠ [])
    (hnew : r.select.fold n ∉ st.prefixes) (hsorted : names.Pairwise (· < ·))
    (hnames : ∀ m ∈ names, r.select.namePrefix <+: m ∧ n < m) (hn' : n' ∈ names)
    (hvisit : (r.skips n' || !r.select.inRange n') = false)
    (hfold : r.select.fold n' = r.select.fold n) :
    r.visit versions names st =
      if r.limit < st.size + 1 then st.cut
      else r.visit versions names (st.mark (r.select.fold n)) := by
  induction names with
  | nil => cases hn'
  | cons m names ih =>
    obtain ⟨hfirst, hsorted⟩ := List.pairwise_cons.mp hsorted
    obtain ⟨hm, hnames⟩ := List.forall_mem_cons.mp hnames
    cases hskip : r.skips m || !r.select.inRange m with
    | true =>
      have htail : n' ∈ names := by
        rcases List.mem_cons.mp hn' with rfl | htail
        · rw [hvisit] at hskip
          cases hskip
        · exact htail
      rw [visit_skip hskip, visit_skip hskip]
      exact ih hsorted hnames htail
    | false =>
      -- every name from `n` to `n'` extends what both fold to
      have hpre : r.select.fold n <+: m := by
        have hpn' : r.select.fold n <+: n' := hfold ▸ fold_isPrefix
        rcases List.mem_cons.mp hn' with rfl | htail
        · exact hpn'
        · exact isPrefix_between fold_isPrefix hpn' hm.2 (hfirst n' htail)
      have hfoldm : r.select.fold m = r.select.fold n := fold_of_isPrefix hn hm.1 hp hpre
      have hitem : r.select.itemOf m (r.select.fold m) = false := by
        have hne : m ≠ r.select.fold n := by
          intro heq
          rw [heq] at hm
          exact not_lt_of_isPrefix fold_isPrefix hm.2
        simp [NameSelector.itemOf, hfoldm, hp, hne]
      have hmarked : r.select.fold m ∈ (st.mark (r.select.fold n)).prefixes := by
        rw [hfoldm]
        exact List.mem_append_right _ (List.mem_singleton_self _)
      rw [visit_mark hskip (hfoldm ▸ hp) (hfoldm ▸ hnew) (by rw [hitem]; rfl),
        visit_quiet hskip (.inr hmarked) (by rw [hitem]; rfl), hfoldm]

def Covers (sel : NameSelector) (kept : Bytes → Bool) (names : List Bytes) : Prop :=
  ∀ n ∈ names, kept n = false → sel.inRange n = true → sel.fold n ≠ [] →
    ∃ n' ∈ names, kept n' = true ∧ sel.inRange n' = true ∧ sel.fold n' = sel.fold n ∧
      n < n' ∧ ¬ n <+: n'

theorem Covers.tail {kept : Bytes → Bool} (h : Covers r.select kept (name :: names))
    (hfirst : ∀ n ∈ names, name < n) : Covers r.select kept names := by
  intro n hn hdropped hrange hp
  obtain ⟨n', hn', hkept, hrange', hfold, hlt, hpre⟩ := h n (List.mem_cons_of_mem name hn) hdropped hrange hp
  refine ⟨n', ?_, hkept, hrange', hfold, hlt, hpre⟩
  rcases List.mem_cons.mp hn' with rfl | hn'
  · exact absurd (List.lt_trans (hfirst n hn) hlt) (List.lt_irrefl n')
  · exact hn'

theorem visit_filter {kept : Bytes → Bool} (hsorted : names.Pairwise (· < ·))
    (hnames : ∀ n ∈ names, r.select.namePrefix <+: n)
    (hdropped : ∀ n ∈ names, kept n = false → r.shows n (versions n) = [])
    (hcovers : Covers r.select kept names) :
    r.visit versions (names.filter kept) st = r.visit versions names st := by
  induction names generalizing st with
  | nil => rfl
  | cons n names ih =>
    obtain ⟨hfirst, hsorted⟩ := List.pairwise_cons.mp hsorted
    have ih : ∀ st, r.visit versions (names.filter kept) st = r.visit versions names st :=
      fun st => ih hsorted (fun m hm => hnames m (List.mem_cons_of_mem n hm))
        (fun m hm => hdropped m (List.mem_cons_of_mem n hm)) (hcovers.tail hfirst)
    cases hkept : kept n with
    | true =>
      rw [List.filter_cons_of_pos hkept, ListCall.visit, ListCall.visit]
      simp only [ih]
    | false =>
      rw [List.filter_cons_of_neg (by simp [hkept])]
      cases hskip : r.skips n || !r.select.inRange n with
      | true => rw [visit_skip hskip, ih]
      | false =>
        have hvs : (if r.select.itemOf n (r.select.fold n) then r.shows n (versions n) else []) = [] := by
          rw [hdropped n List.mem_cons_self hkept, ite_self]
        by_cases hquiet : r.select.fold n = [] ∨ r.select.fold n ∈ st.prefixes
        · rw [visit_quiet hskip hquiet hvs, ih]
        · obtain ⟨hp, hnew⟩ := not_or.mp hquiet
          obtain ⟨hvisit, hrange⟩ := Bool.or_eq_false_iff.mp hskip
          obtain ⟨n', hn', hkept', hrange', hfold, hlt, hpre⟩ :=
            hcovers n List.mem_cons_self hkept (by simpa using hrange) hp
          have hlater : n' ∈ names.filter kept := by
            rcases List.mem_cons.mp hn' with rfl | hn'
            · exact absurd hlt (List.lt_irrefl n')
            · exact List.mem_filter.mpr ⟨hn', hkept'⟩
          rw [visit_mark hskip hp hnew hvs]
          rw [visit_shared (hnames n List.mem_cons_self) hp hnew (hsorted.filter kept) (fun m hm => ?_)
            hlater (by rw [not_skips_later hvisit hlt hpre, hrange']; rfl) hfold, ih]
          have hm := List.mem_of_mem_filter hm
          exact ⟨hnames m (List.mem_cons_of_mem n hm), hfirst m hm⟩

theorem addVersions_prefixes (marked first : Bool) (vs : List ObjectRecord) :
    (r.addVersions name marked first vs st).1.prefixes = st.prefixes := by
  induction vs generalizing first st with
  | nil => rfl
  | cons v vs ih =>
    rw [ListCall.addVersions]
    generalize (if marked = true then st.last else _) = last
    split_ifs
    · rfl
    · exact ih false

theorem visit_cons (r : ListCall) (versions : Bytes → List ObjectRecord) (n : Bytes)
    (names : List Bytes) (st : ListState) :
    ∃ st', (r.visit versions (n :: names) st = r.visit versions names st' ∨
        r.visit versions (n :: names) st = st'.cut) ∧
      (st'.prefixes = st.prefixes ∨ r.skips n = false ∧ r.select.inRange n = true ∧ r.select.fold n ≠ [] ∧
          st'.prefixes = st.prefixes ++ [r.select.fold n]) := by
  rw [ListCall.visit]
  dsimp only
  by_cases hskip : (r.skips n || !r.select.inRange n) = true
  · rw [if_pos hskip]
    exact ⟨st, .inl rfl, .inl rfl⟩
  rw [if_neg hskip]
  generalize (if r.select.itemOf n (r.select.fold n) = true then r.shows n (versions n) else []) = vs
  generalize hmarks : (decide (r.select.fold n ≠ []) && decide (r.select.fold n ∉ st.prefixes)) = marks
  by_cases hquiet : (!marks && vs.isEmpty) = true
  · rw [if_pos hquiet]
    exact ⟨st, .inl rfl, .inl rfl⟩
  rw [if_neg hquiet]
  generalize st.size + (if marks = true then 1 else 0) + (if vs.isEmpty = true then 0 else 1) = need
  by_cases hroom : r.limit < need
  · rw [if_pos hroom]
    exact ⟨st, .inr rfl, .inl rfl⟩
  rw [if_neg hroom]
  generalize hnext : (if marks = true then ({ st with
    prefixes := st.prefixes ++ [r.select.fold n]
    last := { after := r.select.fold n, folded := true } } : ListState) else st) = next
  have hgrown : next.prefixes = st.prefixes ∨
      r.skips n = false ∧ r.select.inRange n = true ∧ r.select.fold n ≠ [] ∧
        next.prefixes = st.prefixes ++ [r.select.fold n] := by
    subst hnext
    cases marks with
    | false => exact .inl rfl
    | true =>
      rw [Bool.and_eq_true, decide_eq_true_eq] at hmarks
      rw [Bool.not_eq_true, Bool.or_eq_false_iff, Bool.not_eq_false'] at hskip
      exact .inr ⟨hskip.1, hskip.2, hmarks.1, rfl⟩
  have hkept : (r.addVersions n marks true vs next).1.prefixes = next.prefixes :=
    addVersions_prefixes marks true vs
  rcases hrun : r.addVersions n marks true vs next with ⟨st', full⟩
  rw [hrun] at hkept
  dsimp only at hkept
  refine ⟨st', ?_, hkept ▸ hgrown⟩
  cases full with
  | true => exact .inr rfl
  | false => exact .inl rfl

theorem mem_prefixes_of_mem {p : Bytes} (h : p ∈ st.prefixes) : p ∈ (r.visit versions names st).prefixes := by
  induction names generalizing st with
  | nil => exact h
  | cons n names ih =>
    obtain ⟨st', hrun, hst'⟩ := visit_cons r versions n names st
    have hp : p ∈ st'.prefixes := by
      rcases hst' with heq | ⟨-, -, -, heq⟩
      · rw [heq]
        exact h
      · rw [heq]
        exact List.mem_append_left _ h
    rcases hrun with hrun | hrun
    · rw [hrun]
      exact ih hp
    · rw [hrun]
      exact hp

theorem mem_prefixes_visit {p : Bytes} (h : p ∈ (r.visit versions names st).prefixes) :
    p ∈ st.prefixes ∨ ∃ n ∈ names, r.skips n = false ∧ r.select.inRange n = true ∧
      r.select.fold n = p ∧ p ≠ [] := by
  induction names generalizing st with
  | nil => exact .inl h
  | cons n names ih =>
    obtain ⟨st', hrun, hst'⟩ := visit_cons r versions n names st
    have hp : p ∈ st'.prefixes ∨ ∃ n ∈ names, r.skips n = false ∧ r.select.inRange n = true ∧
        r.select.fold n = p ∧ p ≠ [] := by
      rcases hrun with hrun | hrun
      · rw [hrun] at h
        exact ih h
      · rw [hrun] at h
        exact .inl h
    rcases hp with hp | ⟨m, hm, hrest⟩
    · rcases hst' with heq | ⟨hvisit, hrange, hne, heq⟩
      · rw [heq] at hp
        exact .inl hp
      · rw [heq, List.mem_append, List.mem_singleton] at hp
        rcases hp with hp | rfl
        · exact .inl hp
        · exact .inr ⟨n, List.mem_cons_self, hvisit, hrange, rfl, hne⟩
    · exact .inr ⟨m, List.mem_cons_of_mem n hm, hrest⟩

variable {t now : Time} {tx tx' : Tx} {b : BucketRecord}

theorem objectsList_soft (hmode : r.mode = .softDeleted) (hb : tx.store.get .bucket r.bucket = some b) :
    objectsList r now tx = (.ok (r.visit (versionsIn tx.store b .softDeleted now)
        (namesOf tx.store .softdeleted r.bucket r.select.namePrefix) {}), tx) := by
  rw [objectsList, existingBucket_some_bind hb, hmode]
  rfl

def softNames (s : Store) (r : ListCall) : List Bytes :=
  namesOf s .softdeleted r.bucket r.select.namePrefix

theorem Faded.versionsIn (h : Faded t tx tx') (hle : t ≤ now) (b : BucketRecord) :
    versionsIn tx'.store b .softDeleted now = versionsIn tx.store b .softDeleted now := by
  funext name
  exact h.restorable hle b _

theorem versionsIn_expired (hle : t ≤ now) (hname : b.name = r.bucket)
    (h : expired tx.store t r.bucket name = true) :
    r.shows name (versionsIn tx.store b .softDeleted now name) = [] := by
  have hnone : versionsIn tx.store b .softDeleted now name = [] := by
    refine List.filter_eq_nil_iff.mpr fun v hv hrestorable => ?_
    rw [expired, Bool.and_eq_true, List.all_eq_true] at h
    rw [hname] at hv
    have hpast := h.2 v (mem_byGeneration.mp hv)
    rw [lasting_of_restorable hle hrestorable] at hpast
    cases hpast
  rw [hnone, ListCall.shows]
  cases r.filter <;> simp

theorem list_of_covers (h : Sweeps t tx tx') (hr : Recoded tx.store) (hle : t ≤ now)
    (hmode : r.mode = .softDeleted) (hb : tx.store.get .bucket r.bucket = some b)
    (hcovers : Covers r.select (fun n => !expired tx.store t r.bucket n) (softNames tx.store r)) :
    (objectsList r now tx').1 = (objectsList r now tx).1 := by
  have hfaded := h.faded hr
  have hb' := (hfaded.get (k := .bucket) (by simp) (by simp) r.bucket).trans hb
  rw [objectsList_soft hmode hb, objectsList_soft hmode hb', hfaded.versionsIn hle, h.names]
  refine congrArg Except.ok (visit_filter (ascending_namesOf _ _ _ _) (fun n hn => ?_)
    (fun n _ hdropped => ?_) hcovers)
  · exact (mem_namesOf.mp hn).1
  · exact versionsIn_expired hle (hr.bucket _ _ hb) (by simpa using hdropped)

def ListCall.from (r : ListCall) (n : Bytes) : ListCall :=
  { r with maxResults := none, token := { after := n, folded := true, gen := 1 } }

theorem from_skips {n m : Bytes} (hn : n ≠ []) : (r.from n).skips m = false ↔ m = n ∨ n < m ∧ ¬ n <+: m := by
  by_cases hm : m = n
  · simp [ListCall.from, ListCall.skips, ListCall.resumes, hn, hm]
  · simp [ListCall.from, ListCall.skips, ListCall.resumes, hn, hm, ← List.isPrefixOf_iff_prefix]

theorem from_marks {n : Bytes} (hp : r.select.fold n ≠ []) (hrange : r.select.inRange n = true)
    (hvs : (r.from n).shows n (versions n) = []) (hsorted : names.Pairwise (· < ·)) (hn : n ∈ names) :
    r.select.fold n ∈ ((r.from n).visit versions names {}).prefixes := by
  have hne : n ≠ [] := by
    rintro rfl
    exact hp (List.prefix_nil.mp fold_isPrefix)
  induction names with
  | nil => cases hn
  | cons m names ih =>
    obtain ⟨hfirst, hsorted⟩ := List.pairwise_cons.mp hsorted
    rcases List.mem_cons.mp hn with rfl | hn
    · have hvisit : ((r.from n).skips n || !(r.from n).select.inRange n) = false := by
        have hselect : (r.from n).select.inRange n = true := hrange
        rw [(from_skips hne).mpr (.inl rfl), hselect]
        rfl
      have hroom : ¬ (r.from n).limit < ListState.size {} + 1 := by
        simp [ListCall.from, ListCall.limit, ListState.size]
      rw [visit_mark hvisit hp List.not_mem_nil (by rw [hvs, ite_self]), if_neg hroom]
      exact mem_prefixes_of_mem (List.mem_append_right _ (List.mem_singleton_self _))
    · have hskip : (r.from n).skips m = true := by
        rw [← Bool.not_eq_false, from_skips hne]
        rintro (rfl | ⟨hlt, -⟩)
        · exact List.lt_irrefl m (hfirst m hn)
        · exact List.lt_irrefl m (List.lt_trans (hfirst n hn) hlt)
      rw [visit_skip (by rw [hskip]; rfl)]
      exact ih hsorted hn

theorem covers_of_list (h : Sweeps t tx tx') (hr : Recoded tx.store) (hle : t ≤ now)
    (hmode : r.mode = .softDeleted) (hb : tx.store.get .bucket r.bucket = some b)
    (hsame : ∀ n, (objectsList (r.from n) now tx').1 = (objectsList (r.from n) now tx).1) :
    Covers r.select (fun n => !expired tx.store t r.bucket n) (softNames tx.store r) := by
  intro n hn hdropped hrange hp
  have hfaded := h.faded hr
  have hb' := (hfaded.get (k := .bucket) (by simp) (by simp) r.bucket).trans hb
  have hexpired : expired tx.store t r.bucket n = true := by simpa using hdropped
  have hne : n ≠ [] := by
    rintro rfl
    exact hp (List.prefix_nil.mp fold_isPrefix)
  have hpage := hsame n
  rw [objectsList_soft (r := r.from n) hmode hb, objectsList_soft (r := r.from n) hmode hb',
    hfaded.versionsIn hle, h.names] at hpage
  have hmarked : r.select.fold n ∈ ((r.from n).visit (versionsIn tx.store b .softDeleted now)
      (softNames tx.store r) {}).prefixes :=
    from_marks hp hrange (versionsIn_expired (r := r.from n) hle (hr.bucket _ _ hb) hexpired)
      (ascending_namesOf _ _ _ _) hn
  have hswept := (congrArg ListPage.prefixes (Except.ok.inj hpage)).symm ▸ hmarked
  rcases mem_prefixes_visit hswept with hnil | ⟨m, hm, hvisit, hrange', hfold, -⟩
  · cases hnil
  · obtain ⟨hm, hkept⟩ := List.mem_filter.mp hm
    rcases (from_skips hne).mp hvisit with rfl | ⟨hlt, hpre⟩
    · have hgone : (!expired tx.store t r.bucket m) = true := hkept
      rw [hexpired] at hgone
      cases hgone
    · exact ⟨m, hm, hkept, hrange', hfold, hlt, hpre⟩

end Listings

inductive SoftRequest : Type → Type 1 where
  | list (r : ListCall) : SoftRequest ListPage
  | getObject (r : SoftGetCall) : SoftRequest ObjectRecord
  | getBucket (name : Bytes) (generation : GenParam) : SoftRequest BucketRecord
  | listBuckets (r : SoftBucketsCall) : SoftRequest BucketPage
  | restore (r : RestoreCall) : SoftRequest ObjectRecord
  | bulkRestore (r : BulkRestoreCall) : SoftRequest BulkRestoreCounts
  | restoreBucket (name : Bytes) (generation : GenParam) : SoftRequest BucketRecord

namespace SoftRequest

variable {A : Type}

def run (now : Time) : SoftRequest A → Action A
  | .list r => objectsList { r with mode := .softDeleted } now
  | .getObject r => getSoftDeletedObject r now
  | .getBucket name generation => bucketsGetSoftDeleted name generation now
  | .listBuckets r => listSoftBuckets r now
  | .restore r => Storage.restoreObject r now
  | .bulkRestore r => objectsBulkRestore r now
  | .restoreBucket name generation => Storage.restoreBucket name generation now

def page (maxResults : Option Nat) (token : ListToken) : SoftRequest A → SoftRequest A
  | .list r => .list { r with maxResults, token }
  | q => q

def Covered (s : Store) (t : Time) : SoftRequest A → Prop
  | .list r => s.get .bucket r.bucket ≠ none →
      Covers r.select (fun n => !expired s t r.bucket n) (softNames s r)
  | _ => True

end SoftRequest

theorem update_answer {A : Type} (s : Server) (e : Env) (m : Action A) :
    (s.update e m).1 = (m (s.tx e)).1 := by
  unfold Server.update
  rcases m (s.tx e) with ⟨r, tx⟩
  cases r <;> rfl

theorem list_unseen {t now : Time} {tx tx' : Tx} (h : Sweeps t tx tx') (hr : Recoded tx.store)
    (hle : t ≤ now) (r : ListCall) :
    (∀ maxResults token, (((SoftRequest.list r).page maxResults token).run now tx').1 =
          (((SoftRequest.list r).page maxResults token).run now tx).1) ↔
      (SoftRequest.list r).Covered tx.store t := by
  have hbucket := (h.faded hr).get (k := .bucket) (by simp) (by simp) r.bucket
  cases hb : tx.store.get .bucket r.bucket with
  | none =>
    rw [hb] at hbucket
    refine ⟨fun _ hsome => absurd hb hsome, fun _ maxResults token => ?_⟩
    simp only [SoftRequest.run, SoftRequest.page, objectsList]
    rw [existingBucket_none_bind hb, existingBucket_none_bind hbucket]
  | some b =>
    constructor
    · intro hsame _
      exact covers_of_list (r := { r with mode := .softDeleted }) h hr hle rfl hb
        fun n => hsame none { after := n, folded := true, gen := 1 }
    · intro hcovered maxResults token
      have hsome : tx.store.get .bucket r.bucket ≠ none := by simp [hb]
      exact list_of_covers (r := { r with mode := .softDeleted, maxResults, token }) h hr hle rfl hb
        (hcovered hsome)

theorem sweep_unseen {A : Type} {a : Sys World Pending} {e₀ e : Env}
    (h : Reach cloudBurrow (fun _ _ _ _ => True) {} a) (hle : e₀.now ≤ e.now) (q : SoftRequest A) :
    (∀ maxResults token,
        ((a.shared.server.update e₀ (sweep e₀.now)).2.update e ((q.page maxResults token).run e.now)).1 =
          (a.shared.server.update e ((q.page maxResults token).run e.now)).1) ↔
      q.Covered a.shared.server.store e₀.now := by
  have hsweeps := sweeps_update a.shared.server e₀ e
  have hr : Recoded (a.shared.server.tx e).store := recoded_of_reach h
  have hr' : Recoded ((a.shared.server.update e₀ (sweep e₀.now)).2.tx e).store := by
    obtain ⟨s, hrun, -⟩ := sweep_run e₀.now (a.shared.server.tx e₀)
    have hkeep := recodes_sweep e₀.now (a.shared.server.tx e₀) hr
    rw [hrun] at hkeep
    rw [Server.update, hrun]
    exact hkeep
  have hfaded := hsweeps.faded hr
  simp only [update_answer]
  cases q with
  | list r => exact list_unseen hsweeps hr hle r
  | getObject r =>
    exact iff_of_true (fun _ _ => (agrees_getSoftDeletedObject hle r _ _ hfaded).1) trivial
  | getBucket name generation =>
    exact iff_of_true (fun _ _ => (agrees_bucketsGetSoftDeleted hle name generation _ _ hfaded).1) trivial
  | listBuckets r => exact iff_of_true (fun _ _ => (agrees_listSoftBuckets hle r _ _ hfaded).1) trivial
  | restore r => exact iff_of_true (fun _ _ => (agrees_restoreObject hle r _ _ hfaded).1) trivial
  | bulkRestore r => exact iff_of_true (fun _ _ => hsweeps.bulkRestore hr hr' hle r) trivial
  | restoreBucket name generation =>
    exact iff_of_true (fun _ _ => (agrees_restoreBucket hle name generation _ _ hfaded).1) trivial

def Reached (w : World) : Prop := Reach cloudBurrow (fun _ _ _ _ => True) {} ⟨w, []⟩

theorem Reached.serve {w : World} (h : Reached w) (p : Pending) (es : List Env) (hl : p.arrives = true)
    (hdone : (cloudBurrow.drive es p w).1.isNone = true) : Reached (w.serve p es) :=
  reach_serve h p es hl (Machine.along_free _ _ _ _ _) hdone

def putShelf (name : Bytes) : Pending :=
  .upload { bucket := shelfBucket, upload := { name }, blob := { id := [1], size := 1, crc32c := 0 } }

def dropShelf (name : Bytes) : Pending := .call (.delete { bucket := shelfBucket, name })

def shelfDeleted : World :=
  ((({} : World).serve (.call (.insertBucket { name := shelfBucket, project := ascii "acme" }))
      [.tick 1]).serve (putShelf (ascii "a/x")) [.tick 2, .tick 2, .tick 2]).serve
    (dropShelf (ascii "a/x")) [.tick 3]

def shelfDeletedTwice : World :=
  (shelfDeleted.serve (putShelf (ascii "a/y")) [.tick 4, .tick 4, .tick 4]).serve
    (dropShelf (ascii "a/y")) [.tick dayLength]

theorem reached_shelfDeleted : Reached shelfDeleted := by
  refine Reached.serve (Reached.serve (Reached.serve .start _ _ rfl ?_) _ _ rfl ?_) _ _ rfl ?_ <;>
    decide +kernel

theorem reached_shelfDeletedTwice : Reached shelfDeletedTwice := by
  refine Reached.serve (Reached.serve reached_shelfDeleted _ _ rfl ?_) _ _ rfl ?_ <;> decide +kernel

def shelfFolders : ListCall := { bucket := shelfBucket, select := { delimiter := [slash] } }

def weekLater : Env := .tick (7 * dayLength + 3)

theorem shelf_covered :
    (SoftRequest.list shelfFolders).Covered shelfDeletedTwice.server.store weekLater.now := by
  intro _
  unfold Covers
  decide +kernel

theorem shelf_sweep_unseen :
    expired shelfDeletedTwice.server.store weekLater.now shelfBucket (ascii "a/x") = true ∧
      ∀ maxResults token,
        ((shelfDeletedTwice.server.update weekLater (sweep weekLater.now)).2.update weekLater
          (((SoftRequest.list shelfFolders).page maxResults token).run weekLater.now)).1 =
        (shelfDeletedTwice.server.update weekLater
          (((SoftRequest.list shelfFolders).page maxResults token).run weekLater.now)).1 :=
  ⟨by decide +kernel, (sweep_unseen reached_shelfDeletedTwice (le_refl weekLater.now)
    (.list shelfFolders)).mpr shelf_covered⟩

theorem expired_prefix_listed : ¬ ∀ (a : Sys World Pending) (e₀ e : Env) (q : SoftRequest ListPage),
      Reach cloudBurrow (fun _ _ _ _ => True) {} a → e₀.now ≤ e.now →
        ((a.shared.server.update e₀ (sweep e₀.now)).2.update e (q.run e.now)).1 =
          (a.shared.server.update e (q.run e.now)).1 := by
  intro hall
  have hsame := hall ⟨shelfDeleted, []⟩ weekLater weekLater (.list shelfFolders) reached_shelfDeleted le_rfl
  have hswept : ((shelfDeleted.server.update weekLater (sweep weekLater.now)).2.update weekLater
      ((SoftRequest.list shelfFolders).run weekLater.now)).1 =
      .ok { items := [], prefixes := [], next := none } := by
    decide +kernel
  have hbefore : (shelfDeleted.server.update weekLater
      ((SoftRequest.list shelfFolders).run weekLater.now)).1 =
      .ok { items := [], prefixes := [ascii "a/"], next := none } := by
    decide +kernel
  rw [hswept, hbefore] at hsame
  cases hsame

end CloudBurrow.Storage
