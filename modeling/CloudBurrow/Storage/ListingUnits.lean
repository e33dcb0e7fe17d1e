import CloudBurrow.Paging.Cursor
import CloudBurrow.Storage.Listing

namespace CloudBurrow.Storage

open Utf8 Paging.Cursor

inductive ListUnit where
  | item (name : Bytes)
  | group (p : Bytes)
deriving DecidableEq

namespace ListUnit

def text : ListUnit → Bytes
  | item name => name
  | group p => p

def isGroup : ListUnit → Bool
  | item _ => false
  | group _ => true

def names (us : List ListUnit) : List Bytes :=
  us.filterMap fun u => match u with
    | item name => some name
    | group _ => none

def groups (us : List ListUnit) : List Bytes :=
  us.filterMap fun u => match u with
    | item _ => none
    | group p => some p

theorem length_names_groups (us : List ListUnit) : (names us).length + (groups us).length = us.length := by
  induction us with
  | nil => rfl
  | cons u us ih =>
    cases u <;> simp only [names, groups, List.filterMap_cons, List.length_cons] at ih ⊢ <;> omega

@[simp] theorem names_append (us vs : List ListUnit) : names (us ++ vs) = names us ++ names vs :=
  List.filterMap_append

@[simp] theorem groups_append (us vs : List ListUnit) : groups (us ++ vs) = groups us ++ groups vs :=
  List.filterMap_append

variable {us : List ListUnit}

theorem mem_groups {p : Bytes} : p ∈ groups us ↔ group p ∈ us := by
  rw [groups, List.mem_filterMap]
  constructor
  · rintro ⟨u, hu, hp⟩
    cases u with
    | item name => cases hp
    | group q =>
      cases hp
      exact hu
  · exact fun h => ⟨group p, h, rfl⟩

theorem mem_names {name : Bytes} : name ∈ names us ↔ item name ∈ us := by
  rw [names, List.mem_filterMap]
  constructor
  · rintro ⟨u, hu, hname⟩
    cases u with
    | item n =>
      cases hname
      exact hu
    | group q => cases hname
  · exact fun h => ⟨item name, h, rfl⟩

theorem nodup_names (h : us.Nodup) : (names us).Nodup := by
  refine h.filterMap fun u v name hu hv => ?_
  cases u <;> cases v <;> simp_all

theorem nodup_groups (h : us.Nodup) : (groups us).Nodup := by
  refine h.filterMap fun u v p hu hv => ?_
  cases u <;> cases v <;> simp_all

end ListUnit

section Units
variable (sel : NameSelector)

def unitOf (name : Bytes) : ListUnit :=
  if sel.fold name = [] then .item name else .group (sel.fold name)

def unitsFrom : List ListUnit → List Bytes → List ListUnit
  | _, [] => []
  | seen, name :: names =>
    if unitOf sel name ∈ seen then unitsFrom seen names
    else unitOf sel name :: unitsFrom (seen ++ [unitOf sel name]) names

def unitsOf (names : List Bytes) : List ListUnit := unitsFrom sel [] names

def fillUnits (max : Nat) : List ListUnit → List Bytes → List ListUnit × Bool
  | us, [] => (us, false)
  | us, name :: names =>
    if unitOf sel name ∈ us then fillUnits max us names
    else if us.length = max then (us, true)
    else fillUnits max (us ++ [unitOf sel name]) names

variable {sel}
variable {names : List Bytes} {u : ListUnit}

theorem mem_unitsFrom {seen : List ListUnit} :
    u ∈ unitsFrom sel seen names ↔ u ∉ seen ∧ ∃ name ∈ names, unitOf sel name = u := by
  induction names generalizing seen with
  | nil => simp [unitsFrom]
  | cons name names ih =>
    rw [unitsFrom]
    by_cases hseen : unitOf sel name ∈ seen
    · rw [if_pos hseen, ih]
      refine and_congr_right fun hu => ⟨fun ⟨n, hn, heq⟩ => ⟨n, List.mem_cons_of_mem _ hn, heq⟩, ?_⟩
      rintro ⟨n, hn, heq⟩
      rcases List.mem_cons.mp hn with rfl | hn
      · exact absurd (heq ▸ hseen) hu
      · exact ⟨n, hn, heq⟩
    · rw [if_neg hseen, List.mem_cons, ih]
      by_cases hu : u = unitOf sel name
      · subst hu
        simp [hseen]
      · have hu' : unitOf sel name ≠ u := fun heq => hu heq.symm
        simp [hu, hu']

theorem mem_unitsOf : u ∈ unitsOf sel names ↔ ∃ name ∈ names, unitOf sel name = u := by
  simp [unitsOf, mem_unitsFrom]

variable {us : List ListUnit}

theorem fillUnits_eq {max : Nat} (names : List Bytes) (h : us.length ≤ max) : fillUnits sel max us names =
      (us ++ (unitsFrom sel us names).take (max - us.length),
        decide (max - us.length < (unitsFrom sel us names).length)) := by
  induction names generalizing us with
  | nil => simp [fillUnits, unitsFrom]
  | cons name names ih =>
    rw [fillUnits, unitsFrom]
    by_cases hseen : unitOf sel name ∈ us
    · rw [if_pos hseen, if_pos hseen, ih h]
    · rw [if_neg hseen, if_neg hseen]
      by_cases hfull : us.length = max
      · rw [if_pos hfull]
        simp [hfull]
      · have hroom : (us ++ [unitOf sel name]).length ≤ max := by
          rw [List.length_append, List.length_singleton]
          omega
        have hone : max - us.length = max - (us ++ [unitOf sel name]).length + 1 := by
          rw [List.length_append, List.length_singleton]
          omega
        rw [if_neg hfull, ih hroom, hone, List.take_succ_cons, List.length_cons]
        simp

theorem text_isPrefix (name : Bytes) : (unitOf sel name).text <+: name := by
  unfold unitOf
  split_ifs
  · exact List.prefix_rfl
  · exact fold_isPrefix

theorem text_le (name : Bytes) : (unitOf sel name).text ≤ name :=
  List.not_lt.mp (not_lt_of_isPrefix (text_isPrefix name))

theorem lt_of_text_lt {a name : Bytes} (h : a < (unitOf sel name).text) : a < name := by
  have hle : (unitOf sel name).text ≤ name := text_le name
  rcases List.le_iff_lt_or_eq.mp hle with hlt | heq
  · exact List.lt_trans h hlt
  · exact heq ▸ h

def ListUnit.beyond (u : ListUnit) (name : Bytes) : Bool :=
  decide (u.text < name) && !(u.isGroup && decide (u.text <+: name))

variable {origin name : Bytes}

theorem unitOf_of_isPrefix (horigin : sel.namePrefix <+: origin) (hname : sel.namePrefix <+: name)
    (hfold : sel.fold name ≠ []) (h : sel.fold name <+: (unitOf sel origin).text) :
    unitOf sel origin = unitOf sel name := by
  have hsame : sel.fold origin = sel.fold name :=
    fold_of_isPrefix hname horigin hfold (h.trans (text_isPrefix origin))
  simp [unitOf, hsame, hfold]

theorem unitOf_of_group (horigin : sel.namePrefix <+: origin) (hname : sel.namePrefix <+: name)
    (hgroup : (unitOf sel origin).isGroup = true) (h : (unitOf sel origin).text <+: name) :
    unitOf sel name = unitOf sel origin := by
  by_cases hfold : sel.fold origin = []
  · simp [unitOf, hfold, ListUnit.isGroup] at hgroup
  · have hsame : sel.fold name = sel.fold origin := by
      refine fold_of_isPrefix horigin hname hfold ?_
      simpa [unitOf, hfold, ListUnit.text] using h
    simp [unitOf, hsame, hfold]

theorem beyond_iff (horigin : sel.namePrefix <+: origin) (hname : sel.namePrefix <+: name) :
    (unitOf sel origin).beyond name = true ↔ (unitOf sel origin).text < (unitOf sel name).text := by
  simp only [ListUnit.beyond, Bool.and_eq_true, decide_eq_true_eq, Bool.not_eq_true',
    Bool.and_eq_false_iff, decide_eq_false_iff_not]
  constructor
  · rintro ⟨hlt, hout⟩
    by_cases hfold : sel.fold name = []
    · simpa [unitOf, hfold, ListUnit.text] using hlt
    · have htext : (unitOf sel name).text = sel.fold name := by
        simp [unitOf, hfold, ListUnit.text]
      rw [htext]
      by_contra hge
      -- between its prefix and the name, the unit's text would extend the prefix
      have hprefix : sel.fold name <+: (unitOf sel origin).text := by
        rcases List.le_iff_lt_or_eq.mp (List.not_lt.mp hge) with hlt' | heq
        · exact isPrefix_between List.prefix_rfl fold_isPrefix hlt' hlt
        · rw [heq]
      have hsame := unitOf_of_isPrefix horigin hname hfold hprefix
      have hgroup : (unitOf sel origin).isGroup = true := by
        rw [hsame]
        simp [unitOf, hfold, ListUnit.isGroup]
      rcases hout with hitem | hnot
      · rw [hgroup] at hitem
        cases hitem
      · exact hnot (hsame ▸ text_isPrefix name)
  · intro hlt
    refine ⟨lt_of_text_lt hlt, ?_⟩
    by_cases hgroup : (unitOf sel origin).isGroup = true
    · right
      intro hprefix
      rw [unitOf_of_group horigin hname hgroup hprefix] at hlt
      exact List.lt_irrefl _ hlt
    · exact Or.inl (by simpa using hgroup)

structure Sorted (sel : NameSelector) (names : List Bytes) : Prop where
  ascending : names.Pairwise (· < ·)
  under : ∀ name ∈ names, sel.namePrefix <+: name

theorem Sorted.filter (h : Sorted sel names) (keep : Bytes → Bool) : Sorted sel (names.filter keep) :=
  ⟨h.ascending.filter keep, fun name hname => h.under name (List.mem_filter.mp hname).1⟩

theorem unitsFrom_ascending (h : Sorted sel names) (seen : List ListUnit) :
    (unitsFrom sel seen names).Pairwise fun u v => u.text < v.text := by
  induction names generalizing seen with
  | nil => exact List.Pairwise.nil
  | cons name names ih =>
    obtain ⟨hlater, hascending⟩ := List.pairwise_cons.mp h.ascending
    have hrest : Sorted sel names := ⟨hascending, fun n hn => h.under n (List.mem_cons_of_mem _ hn)⟩
    rw [unitsFrom]
    split_ifs with hseen
    · exact ih hrest seen
    · refine List.pairwise_cons.mpr ⟨fun v hv => ?_, ih hrest _⟩
      obtain ⟨hnew, n, hn, rfl⟩ := mem_unitsFrom.mp hv
      have hname := h.under name List.mem_cons_self
      refine (beyond_iff hname (hrest.under n hn)).mp ?_
      simp only [ListUnit.beyond, Bool.and_eq_true, decide_eq_true_eq, Bool.not_eq_true',
        Bool.and_eq_false_iff, decide_eq_false_iff_not]
      constructor
      · exact List.lt_of_le_of_lt (text_le name) (hlater n hn)
      · by_contra hin
        push Not at hin
        have hsame := unitOf_of_group hname (hrest.under n hn) (by simpa using hin.1) hin.2
        exact hnew (by simp [hsame])

theorem unitsOf_ascending (h : Sorted sel names) : (unitsOf sel names).Pairwise fun u v => u.text < v.text :=
  unitsFrom_ascending h []

theorem nodup_of_text_ascending (h : us.Pairwise fun u v => u.text < v.text) : us.Nodup := by
  refine List.Pairwise.imp ?_ h
  rintro u v hlt rfl
  exact List.lt_irrefl _ hlt

theorem eq_of_text_ascending {vs : List ListUnit} (hu : us.Pairwise fun u v => u.text < v.text)
    (hv : vs.Pairwise fun u v => u.text < v.text) (h : ∀ u, u ∈ us ↔ u ∈ vs) : us = vs := by
  have hperm : us.Perm vs := (List.perm_ext_iff_of_nodup (nodup_of_text_ascending hu)
    (nodup_of_text_ascending hv)).mpr h
  exact hperm.eq_of_pairwise (fun u v _ _ huv hvu => absurd (List.lt_trans huv hvu) (List.lt_irrefl _)) hu hv

variable (sel) in
def unitsListing (names : List Bytes) : Listing ListUnit ListUnit where
  entries := unitsOf sel names
  mark := id
  past u v := decide (u.text < v.text)

theorem unitsListing_aligned (h : Sorted sel names) (size : Nat) : (unitsListing sel names).Aligned size := by
  refine Listing.aligned_of_ordered ?_ ?_
  · intro u _
    exact decide_eq_false (List.lt_irrefl _)
  · refine (unitsOf_ascending h).imp fun {u v} huv => ?_
    exact ⟨decide_eq_true huv, decide_eq_false fun hvu => List.lt_irrefl _ (List.lt_trans huv hvu)⟩

theorem unitsOf_beyond (h : Sorted sel names) (hu : u ∈ unitsOf sel names) :
    unitsOf sel (names.filter u.beyond) = (unitsListing sel names).rest (some u) := by
  obtain ⟨origin, horigin, rfl⟩ := mem_unitsOf.mp hu
  refine eq_of_text_ascending (unitsOf_ascending (h.filter _)) ((unitsOf_ascending h).filter _) fun v => ?_
  rw [mem_unitsOf, Listing.rest, List.mem_filter]
  simp only [List.mem_filter, unitsListing, Listing.shows, Option.all_some, decide_eq_true_eq, mem_unitsOf]
  constructor
  · rintro ⟨name, ⟨hname, hbeyond⟩, rfl⟩
    exact ⟨⟨name, hname, rfl⟩, (beyond_iff (h.under origin horigin) (h.under name hname)).mp hbeyond⟩
  · rintro ⟨⟨name, hname, rfl⟩, hlt⟩
    exact ⟨name, ⟨hname, (beyond_iff (h.under origin horigin) (h.under name hname)).mpr hlt⟩, rfl⟩

end Units

end CloudBurrow.Storage
