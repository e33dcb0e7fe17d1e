import CloudBurrow.Codec.XmlText
import CloudBurrow.Storage.ListingUnits
import CloudBurrow.Storage.Recoded

namespace CloudBurrow.Storage

open Utf8 Transaction XmlText Paging.Cursor

structure XmlListCall where
  bucket : Bytes
  start : Bytes := []
  delimiter : Bytes := []
  marker : Bytes := []
  maxKeys : Option Nat := none

structure XmlListState where
  contents : List ObjectRecord := []
  commonPrefixes : List Bytes := []
  last : Bytes := []
deriving DecidableEq

structure XmlListPage where
  contents : List ObjectRecord
  commonPrefixes : List Bytes
  next : Option Bytes
deriving DecidableEq

namespace XmlListState

def size (st : XmlListState) : Nat := st.contents.length + st.commonPrefixes.length

def page (st : XmlListState) : XmlListPage := ⟨st.contents, st.commonPrefixes, none⟩

def cut (st : XmlListState) : XmlListPage := ⟨st.contents, st.commonPrefixes, some st.last⟩

end XmlListState

namespace XmlListCall

def limit (r : XmlListCall) : Nat :=
  match r.maxKeys with
  | none => 1000
  | some n => if n < 1000 then n else 1000

def select (r : XmlListCall) : NameSelector := { namePrefix := r.start, delimiter := r.delimiter }

def visit (r : XmlListCall) (object : Bytes → Option ObjectRecord) : List Bytes → XmlListState → XmlListPage
  | [], st => st.page
  | name :: names, st =>
    if r.marker ≠ [] ∧ ¬ r.marker < name then visit r object names st
    else
      let p := r.select.fold name
      if p ≠ [] then
        if p ∈ st.commonPrefixes ∨ r.marker ≠ [] ∧ p <+: r.marker then visit r object names st
        else if r.limit ≤ st.size then st.cut
        else visit r object names
          { st with commonPrefixes := st.commonPrefixes ++ [p], last := p }
      else if r.limit ≤ st.size then st.cut
      else
        match object name with
        | none => st.page
        | some o => visit r object names { st with contents := st.contents ++ [o], last := name }

end XmlListCall

def liveObject (s : Store) (bucket name : Bytes) : Option ObjectRecord :=
  s.get .object (objectKey bucket name)

def xmlList (r : XmlListCall) : Action XmlListPage := do
  let _ ← existingBucket r.bucket
  let names ← listNames r.bucket r.start .live
  .read fun tx => r.visit (liveObject tx.store r.bucket) names {}

structure Shown where
  keys : List Bytes
  prefixes : List Bytes
deriving DecidableEq

def XmlListPage.read (page : XmlListPage) : Shown :=
  ⟨page.contents.map fun o => carry o.name, page.commonPrefixes.map carry⟩

def ListPage.read (page : ListPage) : Shown :=
  ⟨page.items.map fun o => toValid o.name, page.prefixes.map toValid⟩

def xmlServe (bucket start delimiter : Bytes) (size : Nat) (tx : Tx) (marker : Bytes) :
    Option (Shown × Option Bytes) :=
  match (xmlList { bucket, start, delimiter, marker, maxKeys := some size } tx).1 with
  | .error _ => none
  | .ok page => some (page.read, page.next.map carry)

def followXml (bucket start delimiter : Bytes) (size : Nat) (tx : Tx) (fuel : Nat) : Option (List Shown) :=
  chase (xmlServe bucket start delimiter size tx) fuel []

def jsonServe (bucket start delimiter : Bytes) (maxResults : Option Nat) (now : Time) (tx : Tx)
    (token : ListToken) : Option (Shown × Option ListToken) :=
  let select : NameSelector := { namePrefix := start, delimiter }
  match (objectsList { bucket, select, maxResults, token } now tx).1 with
  | .error _ => none
  | .ok page => some (page.read, page.next)

def followJson (bucket start delimiter : Bytes) (maxResults : Option Nat) (now : Time) (tx : Tx)
    (fuel : Nat) : Option (List Shown) :=
  chase (jsonServe bucket start delimiter maxResults now tx) fuel {}

section Filling
variable {object : Bytes → Option ObjectRecord} {us : List ListUnit}

def lastText (us : List ListUnit) : Bytes := (us.getLast?.map ListUnit.text).getD []

def objectsOf (object : Bytes → Option ObjectRecord) (us : List ListUnit) : List ObjectRecord :=
  (ListUnit.names us).filterMap object

variable {names : List Bytes}

theorem length_filterMap_object (h : ∀ name ∈ names, (object name).isSome = true) :
    (names.filterMap object).length = names.length := by
  induction names with
  | nil => rfl
  | cons name names ih =>
    obtain ⟨hname, hnames⟩ := List.forall_mem_cons.mp h
    obtain ⟨o, ho⟩ := Option.isSome_iff_exists.mp hname
    rw [List.filterMap_cons_some ho, List.length_cons, List.length_cons, ih hnames]

structure Met (object : Bytes → Option ObjectRecord) (us : List ListUnit) (names : List Bytes) : Prop where
  stocked : ∀ name ∈ ListUnit.names us, (object name).isSome = true
  fresh : ∀ name ∈ names, ListUnit.item name ∉ us
  live : ∀ name ∈ names, (object name).isSome = true
  ascending : names.Pairwise (· < ·)

namespace Met
variable {name : Bytes} {names : List Bytes}

theorem tail (h : Met object us (name :: names)) : Met object us names :=
  ⟨h.stocked, fun n hn => h.fresh n (List.mem_cons_of_mem _ hn),
    fun n hn => h.live n (List.mem_cons_of_mem _ hn), (List.pairwise_cons.mp h.ascending).2⟩

theorem group (h : Met object us (name :: names)) (p : Bytes) : Met object (us ++ [.group p]) names := by
  refine ⟨fun n hn => h.stocked n ?_, fun n hn => ?_, h.tail.live, h.tail.ascending⟩
  · simpa [ListUnit.mem_names] using hn
  · simpa using h.tail.fresh n hn

theorem item (h : Met object us (name :: names)) : Met object (us ++ [.item name]) names := by
  refine ⟨fun n hn => ?_, fun n hn => ?_, h.tail.live, h.tail.ascending⟩
  · rw [ListUnit.mem_names, List.mem_append, List.mem_singleton, ListUnit.item.injEq] at hn
    rcases hn with hn | rfl
    · exact h.stocked n (ListUnit.mem_names.mpr hn)
    · exact h.live n List.mem_cons_self
  · rw [List.mem_append, List.mem_singleton, ListUnit.item.injEq]
    rintro (hin | rfl)
    · exact h.tail.fresh n hn hin
    · exact List.lt_irrefl _ ((List.pairwise_cons.mp h.ascending).1 n hn)

end Met

theorem Met.unit {name : Bytes} (sel : NameSelector) (h : Met object us (name :: names)) :
    Met object (us ++ [unitOf sel name]) names := by
  rw [unitOf]
  split_ifs
  · exact h.item
  · exact h.group _

theorem visits_eq {P : Type} {V : List Bytes → List ListUnit → P} {f : List ListUnit × Bool → P}
    {sel : NameSelector} {limit : Nat} {skips : Bytes → Bool} (hnil : ∀ us, V [] us = f (us, false))
    (hcons : ∀ {name names us}, Met object us (name :: names) → V (name :: names) us =
      if skips name = true ∨ unitOf sel name ∈ us then V names us
      else if limit ≤ us.length then f (us, true) else V names (us ++ [unitOf sel name]))
    (h : Met object us names) (hlimit : us.length ≤ limit) :
    V names us = f (fillUnits sel limit us (names.filter fun n => !skips n)) := by
  induction names generalizing us with
  | nil => exact hnil us
  | cons name names ih =>
    rw [hcons h]
    cases hskip : skips name with
    | true => rw [if_pos (Or.inl rfl), ih h.tail hlimit, List.filter_cons_of_neg (by simp [hskip])]
    | false =>
      rw [List.filter_cons_of_pos (by simp [hskip]), fillUnits]
      by_cases hseen : unitOf sel name ∈ us
      · rw [if_pos (Or.inr hseen), if_pos hseen, ih h.tail hlimit]
      · rw [if_neg (by simp [hseen]), if_neg hseen]
        by_cases hfull : us.length = limit
        · rw [if_pos hfull.ge, if_pos hfull]
        · rw [if_neg (by omega), if_neg hfull, ih (h.unit sel) (by simp; omega)]

def xmlState (object : Bytes → Option ObjectRecord) (us : List ListUnit) : XmlListState :=
  ⟨objectsOf object us, ListUnit.groups us, lastText us⟩

theorem size_xmlState (h : Met object us names) : (xmlState object us).size = us.length := by
  rw [XmlListState.size, xmlState, objectsOf, length_filterMap_object h.stocked, ListUnit.length_names_groups]

theorem xmlState_group (p : Bytes) : xmlState object (us ++ [.group p]) =
      { xmlState object us with
        commonPrefixes := (xmlState object us).commonPrefixes ++ [p], last := p } := by
  simp [xmlState, objectsOf, lastText, ListUnit.names, ListUnit.groups, ListUnit.text]

theorem xmlState_item {name : Bytes} {o : ObjectRecord} (ho : object name = some o) :
    xmlState object (us ++ [.item name]) =
      { xmlState object us with
        contents := (xmlState object us).contents ++ [o], last := name } := by
  simp [xmlState, objectsOf, lastText, ListUnit.names, ListUnit.groups, ListUnit.text, ho]

namespace XmlListCall

def skips (r : XmlListCall) (name : Bytes) : Bool :=
  decide (r.marker ≠ [] ∧
    (¬ r.marker < name ∨ r.select.fold name ≠ [] ∧ r.select.fold name <+: r.marker))

def unitPage (object : Bytes → Option ObjectRecord) (found : List ListUnit × Bool) : XmlListPage :=
  if found.2 then (xmlState object found.1).cut else (xmlState object found.1).page

theorem visit_cons (r : XmlListCall) {name : Bytes} {names : List Bytes} (h : Met object us (name :: names)) :
    r.visit object (name :: names) (xmlState object us) =
      if r.skips name = true ∨ unitOf r.select name ∈ us then r.visit object names (xmlState object us)
      else if r.limit ≤ us.length then (xmlState object us).cut
      else r.visit object names (xmlState object (us ++ [unitOf r.select name])) := by
  obtain ⟨o, ho⟩ := Option.isSome_iff_exists.mp (h.live name List.mem_cons_self)
  rw [visit, size_xmlState h]
  by_cases hskip : r.marker ≠ [] ∧ ¬ r.marker < name
  · simp [skips, hskip]
  · by_cases hfold : r.select.fold name = []
    · simp [skips, unitOf, hfold, h.fresh name List.mem_cons_self, ho, xmlState_item ho]
    · rw [if_neg hskip, unitOf, if_neg hfold, xmlState_group]
      have hskips : r.skips name = true ↔ r.marker ≠ [] ∧ r.select.fold name <+: r.marker := by
        rw [skips, decide_eq_true_eq]
        tauto
      simp [hskips, hfold, xmlState, ListUnit.mem_groups, or_comm]

theorem visit_eq (r : XmlListCall) {names : List Bytes} (h : Met object us names)
    (hlimit : us.length ≤ r.limit) :
    r.visit object names (xmlState object us) =
      unitPage object (fillUnits r.select r.limit us (names.filter fun n => !r.skips n)) :=
  visits_eq (V := fun names us => r.visit object names (xmlState object us))
    (fun us => by simp [visit, unitPage]) (fun h => by simpa [unitPage] using r.visit_cons h) h hlimit

end XmlListCall

def tokenOf : ListUnit → ListToken
  | .item name => { after := name }
  | .group p => { after := p, folded := true }

def jsonState (object : Bytes → Option ObjectRecord) (us : List ListUnit) : ListState :=
  ⟨objectsOf object us, ListUnit.groups us, (us.getLast?.map tokenOf).getD {}⟩

theorem size_jsonState (h : Met object us names) : (jsonState object us).size = us.length := by
  rw [ListState.size, jsonState, objectsOf, length_filterMap_object h.stocked, ListUnit.length_names_groups]

theorem jsonState_group (p : Bytes) : jsonState object (us ++ [.group p]) =
      { jsonState object us with
        prefixes := (jsonState object us).prefixes ++ [p]
        last := { after := p, folded := true } } := by
  simp [jsonState, objectsOf, tokenOf, ListUnit.names, ListUnit.groups]

theorem jsonState_item {name : Bytes} {o : ObjectRecord} (ho : object name = some o) :
    jsonState object (us ++ [.item name]) =
      { jsonState object us with
        items := (jsonState object us).items ++ [o], last := { after := name } } := by
  simp [jsonState, objectsOf, tokenOf, ListUnit.names, ListUnit.groups, ho]

namespace ListCall

def unitPage (object : Bytes → Option ObjectRecord) (found : List ListUnit × Bool) : ListPage :=
  if found.2 then (jsonState object found.1).cut else (jsonState object found.1).page

structure Plain (r : ListCall) : Prop where
  live : r.mode = .live
  selects : r.select = { namePrefix := r.select.namePrefix, delimiter := r.select.delimiter }
  unfiltered : r.filter = none
  first : r.token.gen = 0

variable {r : ListCall}

theorem Plain.inRange (h : r.Plain) (name : Bytes) : r.select.inRange name = true := by
  rw [h.selects]
  simp [NameSelector.inRange]

theorem Plain.itemOf (h : r.Plain) (name p : Bytes) : r.select.itemOf name p = decide (p = []) := by
  rw [h.selects]
  simp [NameSelector.itemOf]

theorem Plain.shows (h : r.Plain) (name : Bytes) (vs : List ObjectRecord) : r.shows name vs = vs := by
  have hresumes : r.resumes name = false := by
    simp [ListCall.resumes, h.first]
  simp [ListCall.shows, hresumes, h.unfiltered]

theorem addVersions_single (h : r.Plain) (name : Bytes) (o : ObjectRecord) (st : ListState) :
    r.addVersions name false true [o] st =
      ({ st with items := st.items ++ [o], last := { after := name } }, false) := by
  simp [ListCall.addVersions, h.live]

theorem visit_cons (hplain : r.Plain) {name : Bytes} {names : List Bytes}
    (h : Met object us (name :: names)) :
    r.visit (fun name => (object name).toList) (name :: names) (jsonState object us) =
      if r.skips name = true ∨ unitOf r.select name ∈ us then
        r.visit (fun name => (object name).toList) names (jsonState object us)
      else if r.limit ≤ us.length then (jsonState object us).cut
      else r.visit (fun name => (object name).toList) names
        (jsonState object (us ++ [unitOf r.select name])) := by
  obtain ⟨o, ho⟩ := Option.isSome_iff_exists.mp (h.live name List.mem_cons_self)
  rw [visit, size_jsonState h]
  by_cases hskip : r.skips name = true
  · simp [hskip]
  · by_cases hfold : r.select.fold name = []
    · simp [hskip, hplain.inRange, hplain.itemOf, hplain.shows, unitOf, hfold,
        h.fresh name List.mem_cons_self, ho, jsonState_item ho, addVersions_single hplain]
    · rw [unitOf, if_neg hfold, jsonState_group]
      by_cases hseen : ListUnit.group (r.select.fold name) ∈ us <;>
        simp [hskip, hplain.inRange, hplain.itemOf, hfold, jsonState, ListUnit.mem_groups, hseen, addVersions]

theorem visit_eq (hplain : r.Plain) {names : List Bytes} (h : Met object us names) (hlimit : us.length ≤ r.limit) :
    r.visit (fun name => (object name).toList) names (jsonState object us) =
      unitPage object (fillUnits r.select r.limit us (names.filter fun n => !r.skips n)) :=
  visits_eq (V := fun names us => r.visit (fun name => (object name).toList) names (jsonState object us))
    (fun us => by simp [visit, unitPage]) (fun h => by simpa [unitPage] using visit_cons hplain h) h hlimit

end ListCall

end Filling

section Agreement
variable {tx : Tx} {b : BucketRecord} {bucket start delimiter : Bytes}

def liveNames (s : Store) (bucket start : Bytes) : List Bytes := namesOf s .object bucket start

def plainSelect (start delimiter : Bytes) : NameSelector := { namePrefix := start, delimiter }

structure Showable (s : Store) (bucket start delimiter : Bytes) : Prop where
  named : ∀ name ∈ liveNames s bucket start, name ≠ []
  carried : ∀ u ∈ unitsOf (plainSelect start delimiter) (liveNames s bucket start), Carried u.text

theorem met_liveNames (s : Store) (bucket start : Bytes) :
    Met (liveObject s bucket) [] (liveNames s bucket start) where
  stocked := by simp [ListUnit.names]
  fresh := by simp
  live name hname := by
    obtain ⟨-, o, ho⟩ := mem_namesOf.mp hname
    exact Option.isSome_iff_exists.mpr ⟨o, ho⟩
  ascending := ascending_namesOf _ _ _ _

theorem sorted_liveNames (s : Store) (bucket : Bytes) (sel : NameSelector) :
    Sorted sel (liveNames s bucket sel.namePrefix) :=
  ⟨ascending_namesOf _ _ _ _, fun _ hname => (mem_namesOf.mp hname).1⟩

theorem unitsOf_resumed {sel : NameSelector} {names : List Bytes} (h : Sorted sel names)
    {t : Option ListUnit} (ht : (unitsListing sel names).Issued t) :
    unitsOf sel (names.filter fun n => t.all fun u => u.beyond n) = (unitsListing sel names).rest t := by
  cases t with
  | none => simp [Listing.rest_none, unitsListing]
  | some u =>
    obtain ⟨y, hy, rfl⟩ := ht u rfl
    exact unitsOf_beyond h hy

theorem text_ne_nil {sel : NameSelector} {name : Bytes} (h : name ≠ []) : (unitOf sel name).text ≠ [] := by
  rw [unitOf]
  split_ifs with hfold
  · exact h
  · exact hfold

section Resuming
variable {sel : NameSelector} {origin name : Bytes}

theorem xml_skips {r : XmlListCall} (hselect : r.select = sel)
    (hmarker : r.marker = (unitOf sel origin).text) (horigin : origin ≠ [])
    (hunder : sel.namePrefix <+: origin) (hname : sel.namePrefix <+: name) :
    (!r.skips name) = (unitOf sel origin).beyond name := by
  have hfolded : (sel.fold name ≠ [] ∧ sel.fold name <+: (unitOf sel origin).text) ↔
      ((unitOf sel origin).isGroup = true ∧ (unitOf sel origin).text <+: name) := by
    constructor
    · rintro ⟨hfold, hprefix⟩
      rw [unitOf_of_isPrefix hunder hname hfold hprefix]
      exact ⟨by simp [unitOf, hfold, ListUnit.isGroup], text_isPrefix name⟩
    · rintro ⟨hgroup, hprefix⟩
      have hsame := unitOf_of_group hunder hname hgroup hprefix
      rw [← hsame] at hgroup ⊢
      by_cases hfold : sel.fold name = []
      · simp [unitOf, hfold, ListUnit.isGroup] at hgroup
      · refine ⟨hfold, ?_⟩
        simp [unitOf, hfold, ListUnit.text]
  have hne : (unitOf sel origin).text ≠ [] := text_ne_nil horigin
  rw [Bool.eq_iff_iff, XmlListCall.skips, ListUnit.beyond, hselect, hmarker]
  simp only [hfolded]
  simp [hne]

theorem json_skips {r : ListCall} {u : ListUnit} (htoken : r.token = tokenOf u)
    (hne : u.text ≠ []) : (!r.skips name) = u.beyond name := by
  have hafter : r.token.after = u.text := by
    rw [htoken]
    cases u <;> rfl
  have hfolded : r.token.folded = u.isGroup := by
    rw [htoken]
    cases u <;> rfl
  have hgen : r.token.gen = 0 := by
    rw [htoken]
    cases u <;> rfl
  rw [Bool.eq_iff_iff, ListCall.skips, ListCall.resumes, ListUnit.beyond, hafter, hfolded, hgen]
  simp [hne, ← Bool.not_eq_true, List.isPrefixOf_iff_prefix]

end Resuming

def Shown.of (us : List ListUnit) : Shown := ⟨ListUnit.names us, ListUnit.groups us⟩

theorem live_name (hr : Recoded tx.store) (hb : tx.store.get .bucket bucket = some b) {name : Bytes}
    {o : ObjectRecord} (ho : liveObject tx.store bucket name = some o) : o.name = toValid name := by
  obtain ⟨hfiled, name', hkey, hname⟩ := hr.live _ _ ho
  have hslash : slash ∉ bucket := hr.bucket _ _ hb ▸ b.named.1
  rw [hname, (objectKey_inj hslash hfiled.bucket.1 hkey).2]

theorem map_filterMap_object {object : Bytes → Option ObjectRecord} {f : ObjectRecord → Bytes}
    {names : List Bytes} (h : ∀ name ∈ names, ∃ o, object name = some o ∧ f o = name) :
    (names.filterMap object).map f = names := by
  induction names with
  | nil => rfl
  | cons name names ih =>
    obtain ⟨⟨o, ho, hf⟩, hnames⟩ := List.forall_mem_cons.mp h
    rw [List.filterMap_cons_some ho, List.map_cons, hf, ih hnames]

namespace Showable
variable (h : Showable tx.store bucket start delimiter)

include h

theorem text_ne {u : ListUnit}
    (hu : u ∈ unitsOf (plainSelect start delimiter) (liveNames tx.store bucket start)) :
    u.text ≠ [] := by
  obtain ⟨name, hname, rfl⟩ := mem_unitsOf.mp hu
  exact text_ne_nil (h.named name hname)

theorem shown {f : Bytes → Bytes} (hf : ∀ x, Carried x → f x = x) (hr : Recoded tx.store)
    (hb : tx.store.get .bucket bucket = some b) {us : List ListUnit}
    (hus : us ⊆ unitsOf (plainSelect start delimiter) (liveNames tx.store bucket start)) :
    (⟨(objectsOf (liveObject tx.store bucket) us).map fun o => f o.name,
      (ListUnit.groups us).map f⟩ : Shown) = .of us := by
  have hkeys : (objectsOf (liveObject tx.store bucket) us).map (fun o => f o.name) = ListUnit.names us := by
    refine map_filterMap_object fun name hname => ?_
    have hunit := hus (ListUnit.mem_names.mp hname)
    have hcarried : Carried name := h.carried _ hunit
    obtain ⟨origin, horigin, heq⟩ := mem_unitsOf.mp hunit
    obtain rfl : origin = name := by
      rw [unitOf] at heq
      split_ifs at heq
      exact ListUnit.item.inj heq
    obtain ⟨-, o, ho⟩ := mem_namesOf.mp horigin
    refine ⟨o, ho, ?_⟩
    rw [live_name hr hb ho, hcarried.toValid, hf _ hcarried]
  have hgroups : (ListUnit.groups us).map f = ListUnit.groups us := by
    refine (List.map_congr_left fun p hp => ?_).trans (List.map_id _)
    exact hf p (h.carried _ (hus (ListUnit.mem_groups.mp hp)))
  rw [hkeys, hgroups, Shown.of]

end Showable

theorem xmlList_run (r : XmlListCall) (hb : tx.store.get .bucket r.bucket = some b) : (xmlList r tx).1 =
      .ok (r.visit (liveObject tx.store r.bucket) (liveNames tx.store r.bucket r.start) {}) := by
  rw [xmlList, existingBucket_some_bind hb]
  rfl

theorem objectsList_live (r : ListCall) (now : Time) (hmode : r.mode = .live)
    (hb : tx.store.get .bucket r.bucket = some b) (hname : b.name = r.bucket) :
    (objectsList r now tx).1 = .ok (r.visit (fun name => (liveObject tx.store r.bucket name).toList)
        (liveNames tx.store r.bucket r.select.namePrefix) {}) := by
  rw [objectsList, existingBucket_some_bind hb, hmode, ← hname]
  rfl

def xmlCursor (t : Option ListUnit) : Bytes := (t.map ListUnit.text).getD []

def jsonCursor (t : Option ListUnit) : ListToken := (t.map tokenOf).getD {}

def xmlLimit (size : Nat) : Nat := if size < 1000 then size else 1000

def jsonLimit (maxResults : Option Nat) : Nat := ListCall.limit { bucket := [], maxResults }

theorem jsonLimit_pos (maxResults : Option Nat) : 0 < jsonLimit maxResults := by
  rw [jsonLimit, ListCall.limit]
  split
  · decide
  · split_ifs <;> omega

section Serving
variable {t : Option ListUnit}

theorem fillUnits_resumed {size : Nat}
    (ht : (unitsListing (plainSelect start delimiter) (liveNames tx.store bucket start)).Issued t)
    {skip : Bytes → Bool}
    (hskip : ∀ name ∈ liveNames tx.store bucket start, (!skip name) = t.all fun u => u.beyond name) :
    fillUnits (plainSelect start delimiter) size []
        ((liveNames tx.store bucket start).filter fun n => !skip n) =
      let l := unitsListing (plainSelect start delimiter) (liveNames tx.store bucket start)
      ((l.rest t).take size, decide (size < (l.rest t).length)) := by
  have hsorted : Sorted (plainSelect start delimiter) (liveNames tx.store bucket start) :=
    sorted_liveNames tx.store bucket (plainSelect start delimiter)
  have hrest := unitsOf_resumed hsorted ht
  rw [List.filter_congr hskip, fillUnits_eq _ (Nat.zero_le _)]
  simp only [List.nil_append, List.length_nil, Nat.sub_zero]
  rw [← hrest]
  rfl

theorem recode_tokenOf {y : ListUnit} (h : Carried y.text) : (tokenOf y).recode = tokenOf y := by
  cases y with
  | item name => exact congrArg (fun after => { after := after : ListToken }) h.toValid
  | group p => exact congrArg (fun after => { after := after, folded := true : ListToken }) h.toValid

theorem XmlListCall.read_unitPage (object : Bytes → Option ObjectRecord) (found : List ListUnit × Bool) :
    (XmlListCall.unitPage object found).read = ⟨(objectsOf object found.1).map fun o => carry o.name,
        (ListUnit.groups found.1).map carry⟩ := by
  rw [XmlListCall.unitPage]
  split_ifs <;> rfl

theorem ListCall.read_unitPage (object : Bytes → Option ObjectRecord) (found : List ListUnit × Bool) :
    (ListCall.unitPage object found).read = ⟨(objectsOf object found.1).map fun o => toValid o.name,
        (ListUnit.groups found.1).map toValid⟩ := by
  rw [ListCall.unitPage]
  split_ifs <;> rfl

variable (h : Showable tx.store bucket start delimiter)

include h

theorem xmlServe_eq {size : Nat} (hsize : 0 < size) (hr : Recoded tx.store)
    (hb : tx.store.get .bucket bucket = some b)
    (ht : (unitsListing (plainSelect start delimiter) (liveNames tx.store bucket start)).Issued t) :
    let l := unitsListing (plainSelect start delimiter) (liveNames tx.store bucket start)
    xmlServe bucket start delimiter size tx (xmlCursor t) = some (.of (l.page (xmlLimit size) t).1,
        (l.page (xmlLimit size) t).2.map fun u => xmlCursor (some u)) := by
  intro l
  let r : XmlListCall := { bucket, start, delimiter, marker := xmlCursor t, maxKeys := some size }
  have hskip : ∀ name ∈ liveNames tx.store bucket start, (!r.skips name) = t.all fun u => u.beyond name := by
    intro name hname
    cases t with
    | none => simp [r, XmlListCall.skips, xmlCursor]
    | some u =>
      obtain ⟨y, hy, rfl⟩ := ht u rfl
      obtain ⟨origin, horigin, rfl⟩ := mem_unitsOf.mp hy
      exact xml_skips rfl rfl (h.named origin horigin) (mem_namesOf.mp horigin).1 (mem_namesOf.mp hname).1
  have hpage : (xmlList r tx).1 = .ok (XmlListCall.unitPage (liveObject tx.store bucket)
      ((l.rest t).take (xmlLimit size), decide (xmlLimit size < (l.rest t).length))) := by
    rw [xmlList_run r hb]
    refine congrArg Except.ok ?_
    refine (r.visit_eq (met_liveNames _ _ _) (Nat.zero_le _)).trans (congrArg _ ?_)
    exact fillUnits_resumed ht hskip
  have hus : (l.rest t).take (xmlLimit size) ⊆
      unitsOf (plainSelect start delimiter) (liveNames tx.store bucket start) :=
    fun u hu => (List.mem_filter.mp (List.mem_of_mem_take hu)).1
  have hread := h.shown (fun _ hx => hx) hr hb hus
  rw [xmlServe, hpage]
  simp only [XmlListCall.read_unitPage, hread]
  by_cases hmore : xmlLimit size < (l.rest t).length
  · have hlimit : 0 < xmlLimit size := by
      rw [xmlLimit]
      split_ifs <;> omega
    obtain ⟨front, y, hfound, -⟩ := Listing.take_eq_append_last hlimit hmore
    have hy : carry y.text = y.text := h.carried _ (hus (by simp [hfound]))
    rw [Listing.page_more hmore hfound, hfound, decide_eq_true hmore]
    simp [XmlListCall.unitPage, XmlListState.cut, xmlState, lastText, xmlCursor, hy, l, unitsListing]
  · have hlast : (l.rest t).length ≤ xmlLimit size := not_lt.mp hmore
    rw [Listing.page_last hlast, decide_eq_false hmore, List.take_of_length_le hlast]
    rfl

theorem jsonServe_eq (maxResults : Option Nat) (now : Time) (hr : Recoded tx.store)
    (hb : tx.store.get .bucket bucket = some b)
    (ht : (unitsListing (plainSelect start delimiter) (liveNames tx.store bucket start)).Issued t) :
    let l := unitsListing (plainSelect start delimiter) (liveNames tx.store bucket start)
    jsonServe bucket start delimiter maxResults now tx (jsonCursor t) =
      some (.of (l.page (jsonLimit maxResults) t).1,
        (l.page (jsonLimit maxResults) t).2.map fun u => jsonCursor (some u)) := by
  intro l
  let r : ListCall :=
    { bucket, select := plainSelect start delimiter, maxResults, token := jsonCursor t }
  have hplain : r.Plain := by
    refine ⟨rfl, rfl, rfl, ?_⟩
    rcases t with _ | (name | p) <;> rfl
  have hskip : ∀ name ∈ liveNames tx.store bucket start, (!r.skips name) = t.all fun u => u.beyond name := by
    intro name hname
    cases t with
    | none => simp [r, ListCall.skips, jsonCursor]
    | some u =>
      obtain ⟨y, hy, rfl⟩ := ht u rfl
      exact json_skips rfl (h.text_ne hy)
  have hpage : (objectsList r now tx).1 = .ok (ListCall.unitPage (liveObject tx.store bucket)
      ((l.rest t).take (jsonLimit maxResults), decide (jsonLimit maxResults < (l.rest t).length))) := by
    rw [objectsList_live r now rfl hb (hr.bucket _ _ hb)]
    refine congrArg Except.ok ?_
    refine (ListCall.visit_eq hplain (met_liveNames _ _ _) (Nat.zero_le _)).trans (congrArg _ ?_)
    exact fillUnits_resumed ht hskip
  have hus : (l.rest t).take (jsonLimit maxResults) ⊆
      unitsOf (plainSelect start delimiter) (liveNames tx.store bucket start) :=
    fun u hu => (List.mem_filter.mp (List.mem_of_mem_take hu)).1
  have hread := h.shown (fun _ hx => hx.toValid) hr hb hus
  rw [jsonServe, ← plainSelect, hpage]
  simp only [ListCall.read_unitPage, hread]
  by_cases hmore : jsonLimit maxResults < (l.rest t).length
  · obtain ⟨front, y, hfound, -⟩ := Listing.take_eq_append_last (jsonLimit_pos maxResults) hmore
    have hy : Carried y.text := h.carried _ (hus (by simp [hfound]))
    rw [Listing.page_more hmore hfound, hfound, decide_eq_true hmore]
    simp [ListCall.unitPage, ListState.cut, jsonState, jsonCursor, recode_tokenOf hy, l, unitsListing]
  · have hlast : (l.rest t).length ≤ jsonLimit maxResults := not_lt.mp hmore
    rw [Listing.page_last hlast, decide_eq_false hmore, List.take_of_length_le hlast]
    rfl

end Serving

theorem flatMap_keys (pages : List (List ListUnit)) :
    (pages.map Shown.of).flatMap Shown.keys = ListUnit.names pages.flatten := by
  induction pages with
  | nil => rfl
  | cons us pages ih => simp [ih, Shown.of]

theorem flatMap_prefixes (pages : List (List ListUnit)) :
    (pages.map Shown.of).flatMap Shown.prefixes = ListUnit.groups pages.flatten := by
  induction pages with
  | nil => rfl
  | cons us pages ih => simp [ih, Shown.of]

def ListingsAgree (bucket start delimiter : Bytes) (size : Nat) (maxResults : Option Nat)
    (now : Time) (tx : Tx) : Prop :=
  ∃ xs js, (∃ fuel, followXml bucket start delimiter size tx fuel = some xs) ∧
    (∃ fuel, followJson bucket start delimiter maxResults now tx fuel = some js) ∧
    xs.flatMap Shown.keys = js.flatMap Shown.keys ∧
    xs.flatMap Shown.prefixes = js.flatMap Shown.prefixes ∧
    (xs.flatMap Shown.keys).Nodup ∧ (xs.flatMap Shown.prefixes).Nodup

theorem listings_agree {size : Nat} (hr : Recoded tx.store)
    (hb : tx.store.get .bucket bucket = some b) (h : Showable tx.store bucket start delimiter)
    (hsize : 0 < size) (maxResults : Option Nat) (now : Time) :
    ListingsAgree bucket start delimiter size maxResults now tx := by
  have hsorted : Sorted (plainSelect start delimiter) (liveNames tx.store bucket start) :=
    sorted_liveNames tx.store bucket (plainSelect start delimiter)
  have hlimit : 0 < xmlLimit size := by
    rw [xmlLimit]
    split_ifs <;> omega
  obtain ⟨fuel, pages, hpages, hall⟩ :=
    Listing.complete_of_aligned hlimit (unitsListing_aligned hsorted (xmlLimit size))
  obtain ⟨fuel', pages', hpages', hall'⟩ :=
    Listing.complete_of_aligned (jsonLimit_pos maxResults) (unitsListing_aligned hsorted _)
  have hxml := Listing.chase_eq (fun t ht => xmlServe_eq h hsize hr hb ht) fuel Listing.issued_none
  have hjson := Listing.chase_eq (fun t ht => jsonServe_eq h maxResults now hr hb ht) fuel'
    Listing.issued_none
  rw [hpages] at hxml
  rw [hpages'] at hjson
  have hnodup := nodup_of_text_ascending (unitsOf_ascending hsorted)
  refine ⟨pages.map .of, pages'.map .of, ⟨fuel, hxml⟩, ⟨fuel', hjson⟩, ?_, ?_, ?_, ?_⟩
  · rw [flatMap_keys, flatMap_keys, hall, hall']
  · rw [flatMap_prefixes, flatMap_prefixes, hall, hall']
  · rw [flatMap_keys, hall]
    exact ListUnit.nodup_names hnodup
  · rw [flatMap_prefixes, hall]
    exact ListUnit.nodup_groups hnodup

end Agreement

section Samples

def sampleBucket : BucketRecord where
  name := ascii "b"
  named := by decide

def bucketOf (names : List Bytes) : Tx where
  store := names.foldl (fun s name => stored s { bucket := sampleBucket.name, name })
    (Store.empty.put .bucket sampleBucket.name sampleBucket)
  lastGen := 0
  outboxSeq := 0
  clock := []
  random := []

theorem recoded_bucketOf (names : List Bytes) : Recoded (bucketOf names).store := by
  suffices h : ∀ s, Recoded s →
      Recoded (names.foldl (fun s name => stored s { bucket := sampleBucket.name, name }) s) from
    h _ (recodes_rebuckets (.put sampleBucket) ⟨.empty, 0, 0, [], []⟩ .empty)
  intro s hs
  induction names generalizing s with
  | nil => exact hs
  | cons name names ih => exact ih _ (hs.putObject sampleBucket.named)

theorem listings_agree_folded :
    Showable (bucketOf [ascii "a/x", ascii "a/" ++ [1], ascii "b"]).store (ascii "b") [] (ascii "/") ∧
    ListingsAgree (ascii "b") [] (ascii "/") 1 none 0 (bucketOf [ascii "a/x", ascii "a/" ++ [1], ascii "b"]) := by
  have hshowable :
      Showable (bucketOf [ascii "a/x", ascii "a/" ++ [1], ascii "b"]).store (ascii "b") [] (ascii "/") :=
    ⟨by decide +kernel, by decide +kernel⟩
  exact ⟨hshowable, listings_agree (b := sampleBucket) (recoded_bucketOf _) (by decide +kernel)
    hshowable (by decide) none 0⟩

theorem control_name_lost : ¬ ListingsAgree (ascii "b") [] [] 1 none 0 (bucketOf [[1], ascii "b"]) := by
  rintro ⟨xs, js, ⟨fuel, hxs⟩, ⟨fuel', hjs⟩, hkeys, -⟩
  have hxml : followXml (ascii "b") [] [] 1 (bucketOf [[1], ascii "b"]) 2 =
      some [⟨[replacement], []⟩, ⟨[], []⟩] := by
    decide +kernel
  have hjson : followJson (ascii "b") [] [] none 0 (bucketOf [[1], ascii "b"]) 1 =
      some [⟨[[1], ascii "b"], []⟩] := by
    decide +kernel
  rw [chase_unique hxs hxml, chase_unique hjs hjson] at hkeys
  revert hkeys
  decide

end Samples

end CloudBurrow.Storage
