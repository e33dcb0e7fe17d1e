import CloudBurrow.Codec.ParseInt
import CloudBurrow.Paging.Cursor
import CloudBurrow.Storage.Listing

namespace CloudBurrow.Storage

open Utf8 JsonText Transaction ParseInt Paging.Cursor

def BucketRecord.softID (b : BucketRecord) : Bytes := softBucketKey b.name b.generation

def Before (a b : BucketRecord) : Prop :=
  a.name < b.name ∨ a.name = b.name ∧ a.generation < b.generation

theorem before_irrefl (a : BucketRecord) : ¬ Before a a := by
  rintro (hlt | ⟨-, hlt⟩)
  · exact List.lt_irrefl _ hlt
  · exact lt_irrefl _ hlt

theorem before_asymm {a b : BucketRecord} (h : Before a b) : ¬ Before b a := by
  intro h'
  rcases h with hlt | ⟨heq, hlt⟩
  · rcases h' with hlt' | ⟨heq', -⟩
    · exact List.lt_irrefl _ (List.lt_trans hlt hlt')
    · exact List.lt_irrefl _ (heq' ▸ hlt)
  · rcases h' with hlt' | ⟨-, hlt'⟩
    · exact List.lt_irrefl _ (heq ▸ hlt')
    · exact lt_asymm hlt hlt'

section Unpaged
variable (s : Store) (project start : Bytes) (now : Time)

def softBucketsOf : List BucketRecord :=
  ((s.values .softbucket start).filter fun b =>
    decide (b.project = project) && before now b.hardDelete).insertionSort
      fun a b => a.name < b.name ∨ a.name = b.name ∧ a.generation ≤ b.generation

def Keyed : Prop :=
  ∀ key b, s.get .softbucket key = some b → key = b.softID

variable {s project start now}

theorem mem_softBucketsOf {b : BucketRecord} : b ∈ softBucketsOf s project start now ↔
      (∃ key, start <+: key ∧ s.get .softbucket key = some b) ∧
        b.project = project ∧ before now b.hardDelete = true := by
  simp only [softBucketsOf, List.mem_insertionSort, List.mem_filter, Store.values,
    List.mem_filterMap, s.mem_list, Bool.and_eq_true, decide_eq_true_eq]
  constructor
  · rintro ⟨⟨key, ⟨hstart, -⟩, hget⟩, hrest⟩
    exact ⟨⟨key, hstart, hget⟩, hrest⟩
  · rintro ⟨⟨key, hstart, hget⟩, hrest⟩
    exact ⟨⟨key, ⟨hstart, b, hget⟩, hget⟩, hrest⟩

theorem nodup_softBucketsOf (hkeyed : Keyed s) : (softBucketsOf s project start now).Nodup := by
  refine (List.perm_insertionSort _ _).nodup_iff.mpr (List.Nodup.filter _ ?_)
  refine (s.nodup_list start).filterMap fun key key' b hb hb' => ?_
  rw [hkeyed key b hb, hkeyed key' b hb']

theorem eq_of_softID (hkeyed : Keyed s) {a b : BucketRecord}
    (ha : a ∈ softBucketsOf s project start now) (hb : b ∈ softBucketsOf s project start now)
    (hid : a.softID = b.softID) : a = b := by
  obtain ⟨⟨key, -, hget⟩, -⟩ := mem_softBucketsOf.mp ha
  obtain ⟨⟨key', -, hget'⟩, -⟩ := mem_softBucketsOf.mp hb
  rw [hkeyed key a hget, hid, ← hkeyed key' b hget', hget', Option.some.injEq] at hget
  exact hget.symm

theorem softBucketsOf_ordered (hkeyed : Keyed s) : (softBucketsOf s project start now).Pairwise Before := by
  have hsorted : (softBucketsOf s project start now).Pairwise fun a b =>
      a.name < b.name ∨ a.name = b.name ∧ a.generation ≤ b.generation := by
    have htotal : Std.Total fun a b : BucketRecord =>
        a.name < b.name ∨ a.name = b.name ∧ a.generation ≤ b.generation := by
      refine ⟨fun a b => ?_⟩
      by_cases hlt : a.name < b.name
      · exact Or.inl (Or.inl hlt)
      · rcases List.le_iff_lt_or_eq.mp (List.not_lt.mp hlt) with hlt' | heq
        · exact Or.inr (Or.inl hlt')
        · rcases le_total a.generation b.generation with hle | hle
          · exact Or.inl (Or.inr ⟨heq.symm, hle⟩)
          · exact Or.inr (Or.inr ⟨heq, hle⟩)
    have htrans : IsTrans BucketRecord fun a b =>
        a.name < b.name ∨ a.name = b.name ∧ a.generation ≤ b.generation := by
      refine ⟨fun a b c hab hbc => ?_⟩
      rcases hab with hab | ⟨heq, hab⟩
      · rcases hbc with hbc | ⟨heq, -⟩
        · exact Or.inl (List.lt_trans hab hbc)
        · exact Or.inl (heq ▸ hab)
      · rcases hbc with hbc | ⟨heq', hbc⟩
        · exact Or.inl (heq ▸ hbc)
        · exact Or.inr ⟨heq.trans heq', hab.trans hbc⟩
    exact List.pairwise_insertionSort _ _
  refine (hsorted.and (nodup_softBucketsOf hkeyed)).imp_of_mem fun {a b} ha hb hab => ?_
  rcases hab.1 with hlt | ⟨heq, hle⟩
  · exact Or.inl hlt
  · refine Or.inr ⟨heq, lt_of_le_of_ne hle fun hgen => hab.2 (eq_of_softID hkeyed ha hb ?_)⟩
    rw [BucketRecord.softID, BucketRecord.softID, heq, hgen]

end Unpaged

section Following
variable (s : Store) (project start : Bytes) (size : Nat) (now : Time)

def followSoftBuckets (tx : Tx) : Nat → Bytes → Option (List (List BucketRecord))
  | 0, _ => none
  | fuel + 1, after =>
    match (listSoftBuckets { project, start, maxResults := some size, after } now tx).1 with
    | .error _ => none
    | .ok page =>
      match page.next with
      | none => some [page.items]
      | some next => (followSoftBuckets tx fuel next).map (page.items :: ·)

def PagesComplete (tx : Tx) : Prop :=
  ∃ fuel pages, followSoftBuckets project start size now tx fuel [] = some pages ∧
    pages.flatten = softBucketsOf tx.store project start now ∧ pages.flatten.Nodup ∧
      ∀ b, b ∈ pages.flatten ↔ (∃ key, start <+: key ∧ tx.store.get .softbucket key = some b) ∧
        b.project = project ∧ before now b.hardDelete = true

def EndsPage (bs : List BucketRecord) (y : BucketRecord) : Prop :=
  ∃ front back, bs = front ++ y :: back ∧ back ≠ [] ∧ size ∣ front.length + 1

def OrdersAgree : Prop :=
  ∀ y x, EndsPage size (softBucketsOf s project start now) y →
    x ∈ softBucketsOf s project start now → (y.softID < x.softID ↔ Before y x)

def softListing : Listing BucketRecord Bytes where
  entries := softBucketsOf s project start now
  mark := BucketRecord.softID
  past after b := decide (after < b.softID)

def lastID (items : List BucketRecord) : Bytes := (items.getLast?.map BucketRecord.softID).getD []

theorem bucketPage_gather (after : Bytes) (bs items : List BucketRecord) :
    bucketPage size after bs items (lastID items) =
      { items := (gather (fun b => decide (after ≠ [] ∧ ¬ after < b.softID)) size items bs).1
        next := if (gather (fun b => decide (after ≠ [] ∧ ¬ after < b.softID)) size items bs).2 then
          some (lastID (gather (fun b => decide (after ≠ [] ∧ ¬ after < b.softID)) size items bs).1)
          else none } := by
  induction bs generalizing items with
  | nil => simp [bucketPage, gather]
  | cons b bs ih =>
    have hid : softBucketKey b.name b.generation = b.softID := rfl
    have hlast : b.softID = lastID (items ++ [b]) := by simp [lastID]
    rw [bucketPage, gather, hid]
    by_cases hskip : after ≠ [] ∧ ¬ after < b.softID
    · rw [if_pos hskip, if_pos (decide_eq_true hskip), ih]
    · have hkeep : ¬ decide (after ≠ [] ∧ ¬ after < b.softID) = true := by
        rwa [decide_eq_true_eq]
      rw [if_neg hskip, if_neg hkeep]
      by_cases hfull : items.length = size
      · rw [if_pos hfull, if_pos hfull]
        rfl
      · rw [if_neg hfull, if_neg hfull, hlast, ih]

def cursorOf (after : Bytes) : Option Bytes := if after = [] then none else some after

theorem gather_softListing (after : Bytes) (items : List BucketRecord) :
    gather (fun b => decide (after ≠ [] ∧ ¬ after < b.softID)) size [] items =
      ((items.filter ((softListing s project start now).shows (cursorOf after))).take size, decide (size <
          (items.filter ((softListing s project start now).shows (cursorOf after))).length)) := by
  have hshows : (fun b : BucketRecord => !decide (after ≠ [] ∧ ¬ after < b.softID)) =
      (softListing s project start now).shows (cursorOf after) := by
    funext b
    by_cases hafter : after = []
    · simp [hafter, cursorOf, Listing.shows]
    · have hcursor : cursorOf after = some after := if_neg hafter
      rw [Bool.eq_iff_iff, hcursor]
      simp only [Bool.not_eq_true', decide_eq_false_iff_not, not_and, not_not, Listing.shows,
        Option.all_some, softListing, decide_eq_true_eq]
      exact ⟨fun h => h hafter, fun h _ => h⟩
  rw [gather_eq, hshows]

theorem bucketPage_page (after : Bytes) : bucketPage size after (softBucketsOf s project start now) [] [] =
      { items := ((softListing s project start now).page size (cursorOf after)).1
        next := if size < ((softListing s project start now).rest (cursorOf after)).length then
          some (lastID ((softListing s project start now).page size (cursorOf after)).1)
          else none } := by
  have hpage := bucketPage_gather size after (softBucketsOf s project start now) []
  rw [show lastID [] = [] from rfl] at hpage
  rw [hpage, gather_softListing s project start size now]
  simp only [decide_eq_true_eq]
  rfl

theorem lastID_append (items : List BucketRecord) (b : BucketRecord) : lastID (items ++ [b]) = b.softID := by
  simp [lastID]

theorem softID_ne_nil (b : BucketRecord) : b.softID ≠ [] := by
  simp [BucketRecord.softID, softBucketKey, objectKey]

variable {s project start size now}

theorem limit_of_size (hpos : 0 < size) (hmax : size ≤ 1000) :
    ListCall.limit { bucket := [], maxResults := some size } = size := by
  simp only [ListCall.limit]
  split_ifs with h <;> omega

theorem listSoftBuckets_page (hproject : project ≠ []) (hpos : 0 < size) (hmax : size ≤ 1000)
    (tx : Tx) (after : Bytes) :
    (listSoftBuckets { project, start, maxResults := some size, after } now tx).1 =
      .ok (bucketPage size after (softBucketsOf tx.store project start now) [] []) := by
  have hrun : (listSoftBuckets { project, start, maxResults := some size, after } now tx).1 =
      .ok (bucketPage (ListCall.limit { bucket := [], maxResults := some size }) after
        (softBucketsOf tx.store project start now) [] []) := by
    simp only [listSoftBuckets, if_neg hproject]
    rfl
  rw [hrun, limit_of_size hpos hmax]

theorem followSoftBuckets_eq (hproject : project ≠ []) (hpos : 0 < size) (hmax : size ≤ 1000)
    (tx : Tx) (fuel : Nat) (after : Bytes) :
    followSoftBuckets project start size now tx fuel after =
      (softListing tx.store project start now).follow size fuel (cursorOf after) := by
  induction fuel generalizing after with
  | zero => rfl
  | succ fuel ih =>
    rw [followSoftBuckets, listSoftBuckets_page hproject hpos hmax, bucketPage_page]
    by_cases hmore : size < ((softListing tx.store project start now).rest (cursorOf after)).length
    · obtain ⟨front, y, hfound, -⟩ := Listing.take_eq_append_last hpos hmore
      have hpage : ((softListing tx.store project start now).page size (cursorOf after)).1 =
          front ++ [y] := hfound
      have hcursor : cursorOf y.softID = some y.softID := if_neg (softID_ne_nil y)
      rw [Listing.follow_more hmore hfound]
      simp only [hpage, if_pos hmore, lastID_append, ih, hcursor]
      rfl
    · rw [Listing.follow_last (not_lt.mp hmore)]
      simp [hmore, Listing.page, List.take_of_length_le (not_lt.mp hmore)]

theorem softListing_onward : (softListing s project start now).Onward := by
  intro t y x _ hy hx
  cases t with
  | none => rfl
  | some after =>
    simp only [Listing.shows, Option.all_some, softListing, decide_eq_true_eq] at hy hx ⊢
    exact List.lt_trans hy hx

theorem mem_back_iff (hkeyed : Keyed s) {front back : List BucketRecord} {y x : BucketRecord}
    (hsplit : softBucketsOf s project start now = front ++ y :: back)
    (hx : x ∈ softBucketsOf s project start now) : x ∈ back ↔ Before y x := by
  have hordered : (softBucketsOf s project start now).Pairwise Before :=
    softBucketsOf_ordered hkeyed
  rw [hsplit] at hordered hx
  obtain ⟨-, hback, hfront⟩ := List.pairwise_append.mp hordered
  have hlater := (List.pairwise_cons.mp hback).1
  constructor
  · exact hlater x
  · intro hbefore
    rcases List.mem_append.mp hx with hmem | hmem
    · exact absurd hbefore (before_asymm (hfront x hmem y List.mem_cons_self))
    · rcases List.mem_cons.mp hmem with rfl | hmem
      · exact absurd hbefore (before_irrefl x)
      · exact hmem

theorem aligned_iff_ordersAgree (hkeyed : Keyed s) :
    (softListing s project start now).Aligned size ↔ OrdersAgree s project start size now := by
  constructor
  · rintro haligned y x ⟨front, back, hsplit, hback, hdvd⟩ hx
    have hrest := haligned front y back hsplit hback hdvd
    rw [← mem_back_iff hkeyed hsplit hx, ← hrest, Listing.rest, List.mem_filter]
    simp [Listing.shows, softListing, hx]
  · intro hagree front y back hsplit hback hdvd
    have hnodup : (softBucketsOf s project start now).Nodup := nodup_softBucketsOf hkeyed
    have hpast : ∀ x ∈ softBucketsOf s project start now,
        (softListing s project start now).shows (some y.softID) x = true ↔ x ∈ back := by
      intro x hx
      rw [mem_back_iff hkeyed hsplit hx, ← hagree y x ⟨front, back, hsplit, hback, hdvd⟩ hx]
      simp [Listing.shows, softListing]
    have hlisted : softBucketsOf s project start now = front ++ y :: back := hsplit
    rw [hlisted] at hpast hnodup
    obtain ⟨-, hyback, hdisjoint⟩ := List.nodup_append.mp hnodup
    rw [Listing.rest, hsplit, List.filter_append, List.filter_cons_of_neg,
      List.filter_eq_nil_iff.mpr, List.filter_eq_self.mpr, List.nil_append]
    · exact fun x hx => (hpast x (by simp [hx])).mpr hx
    · intro x hx hshown
      have hmem := (hpast x (by simp [hx])).mp hshown
      exact hdisjoint x hx x (List.mem_cons_of_mem y hmem) rfl
    · intro hshown
      exact (List.nodup_cons.mp hyback).1 ((hpast y (by simp)).mp hshown)

theorem ordersAgree_of_pagesComplete {tx : Tx} (hkeyed : Keyed tx.store) (hproject : project ≠ [])
    (hpos : 0 < size) (hmax : size ≤ 1000) (h : PagesComplete project start size now tx) :
    OrdersAgree tx.store project start size now := by
  obtain ⟨fuel, pages, hpages, hflatten, -⟩ := h
  rw [followSoftBuckets_eq hproject hpos hmax] at hpages
  exact (aligned_iff_ordersAgree hkeyed).mp ((Listing.complete_iff_aligned hpos
    (nodup_softBucketsOf hkeyed) softListing_onward).mp ⟨fuel, pages, hpages, hflatten⟩)

theorem pagesComplete_iff {tx : Tx} (hkeyed : Keyed tx.store) (hproject : project ≠ [])
    (hpos : 0 < size) (hmax : size ≤ 1000) :
    PagesComplete project start size now tx ↔ OrdersAgree tx.store project start size now := by
  constructor
  · exact ordersAgree_of_pagesComplete hkeyed hproject hpos hmax
  · intro hagree
    obtain ⟨fuel, pages, hpages, hflatten⟩ :=
      Listing.complete_of_aligned hpos ((aligned_iff_ordersAgree hkeyed).mpr hagree)
    have hentries : pages.flatten = softBucketsOf tx.store project start now := hflatten
    refine ⟨fuel, pages, ?_, hentries, ?_, ?_⟩
    · rw [followSoftBuckets_eq hproject hpos hmax]
      exact hpages
    · rw [hentries]
      exact nodup_softBucketsOf hkeyed
    · intro b
      rw [hentries]
      exact mem_softBucketsOf

def softBucket (name : String) (hname : slash ∉ ascii name ∧ Valid (ascii name)) (generation : Int) :
    BucketRecord :=
  { name := ascii name, named := hname, project := ascii "p", generation, hardDelete := 1 }

def withSoftBuckets (bs : List BucketRecord) : Tx where
  store := bs.foldl (fun s b => s.put .softbucket b.softID b) Store.empty
  lastGen := 0
  outboxSeq := 0
  clock := []
  random := []

theorem keyed_empty : Keyed Store.empty := by
  intro key b h
  simp at h

theorem keyed_put {s : Store} (h : Keyed s) (b : BucketRecord) : Keyed (s.put .softbucket b.softID b) := by
  intro key c hget
  by_cases hkey : b.softID = key
  · subst hkey
    rw [Store.get_put_self, Option.some.injEq] at hget
    rw [hget]
  · rw [Store.get_put_key s hkey] at hget
    exact h key c hget

theorem keyed_withSoftBuckets (bs : List BucketRecord) : Keyed (withSoftBuckets bs).store := by
  suffices h : ∀ s, Keyed s → Keyed (bs.foldl (fun s b => s.put .softbucket b.softID b) s) from
    h _ keyed_empty
  intro s hs
  induction bs generalizing s with
  | nil => exact hs
  | cons b bs ih => exact ih _ (keyed_put hs b)

def foo : BucketRecord := softBucket "foo" (by decide) 1

def fooBar : BucketRecord := softBucket "foo-bar" (by decide) 2

theorem softBuckets_lost : validBucketName foo.name = none ∧ validBucketName fooBar.name = none ∧
      softBucketsOf (withSoftBuckets [foo, fooBar]).store (ascii "p") [] 0 = [foo, fooBar] ∧
        followSoftBuckets (ascii "p") [] 1 0 (withSoftBuckets [foo, fooBar]) 2 [] = some [[foo], []] ∧
            ¬ PagesComplete (ascii "p") [] 1 0 (withSoftBuckets [foo, fooBar]) := by
  have hlisted : softBucketsOf (withSoftBuckets [foo, fooBar]).store (ascii "p") [] 0 = [foo, fooBar] := by
    decide +kernel
  refine ⟨by decide +kernel, by decide +kernel, hlisted, by decide +kernel, fun hcomplete => ?_⟩
  have hagree := ordersAgree_of_pagesComplete (keyed_withSoftBuckets _) (by decide) (by decide)
    (by decide) hcomplete
  have hends : EndsPage 1 (softBucketsOf (withSoftBuckets [foo, fooBar]).store (ascii "p") [] 0)
      foo := ⟨[], [fooBar], hlisted, by simp, by simp⟩
  have hbefore : Before foo fooBar := Or.inl (by decide)
  exact absurd ((hagree foo fooBar hends (by simp [hlisted])).mpr hbefore) (by decide)

def fop : BucketRecord := softBucket "fop" (by decide) 2

theorem softBuckets_paged : OrdersAgree (withSoftBuckets [foo, fop]).store (ascii "p") [] 1 0 ∧
      PagesComplete (ascii "p") [] 1 0 (withSoftBuckets [foo, fop]) := by
  have hlisted : softBucketsOf (withSoftBuckets [foo, fop]).store (ascii "p") [] 0 = [foo, fop] := by
    decide +kernel
  have hagree : OrdersAgree (withSoftBuckets [foo, fop]).store (ascii "p") [] 1 0 := by
    intro y x hy hx
    obtain ⟨front, back, hsplit, hback, -⟩ := hy
    rw [hlisted] at hsplit hx
    have hy : y = foo := by
      cases front with
      | nil => exact (List.cons.inj hsplit).1.symm
      | cons z front =>
        have hlength := congrArg List.length hsplit
        have hpos := List.length_pos_iff.mpr hback
        simp only [List.length_append, List.length_cons, List.length_nil] at hlength
        omega
    subst hy
    rcases List.mem_cons.mp hx with rfl | hx
    · exact ⟨fun h => absurd h (List.lt_irrefl _), fun h => absurd h (before_irrefl _)⟩
    · rw [List.mem_singleton.mp hx]
      exact ⟨fun _ => Or.inl (by decide), fun _ => by decide⟩
  exact ⟨hagree, (pagesComplete_iff (keyed_withSoftBuckets _) (by decide) (by decide)
    (by decide)).mpr hagree⟩

end Following

end CloudBurrow.Storage
