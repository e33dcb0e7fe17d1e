import CloudBurrow.Codec.ByteOrder
import CloudBurrow.Codec.XmlText
import CloudBurrow.Paging.Cursor
import CloudBurrow.Storage.Records

namespace CloudBurrow.Storage.Multipart

open Utf8 XmlText Paging.Cursor

structure MpuPart where
  size : Int
  md5 : Bytes
  modified : Time
deriving DecidableEq

structure MultipartUpload where
  id : Bytes
  name : Bytes
  initiated : Time
  parts : List (Nat × MpuPart)
  plain : Carried id
  named : name ≠ []
  distinct : (parts.map Prod.fst).Nodup
  numbered : ∀ p ∈ parts, 1 ≤ p.1

def maxListParts : Nat := 1000

def pageLimit (asked : Option Nat) : Nat :=
  match asked with
  | none => maxListParts
  | some n => if n < maxListParts then n else maxListParts

section Filling
variable {α : Type}

def fill (skip : α → Bool) (max : Nat) : List α → List α → Option (List α × Option α)
  | items, [] => some (items, none)
  | items, x :: xs =>
    if skip x then fill skip max items xs
    else if items.length = max then items.getLast?.map fun last => (items, some last)
    else fill skip max (items ++ [x]) xs

theorem fill_gather (skip : α → Bool) (max : Nat) (items xs : List α) : fill skip max items xs =
      if (gather skip max items xs).2 then
        (gather skip max items xs).1.getLast?.map fun last => ((gather skip max items xs).1, some last)
      else some ((gather skip max items xs).1, none) := by
  induction xs generalizing items with
  | nil => simp [fill, gather]
  | cons x xs ih =>
    rw [fill, gather]
    by_cases hskip : skip x = true
    · rw [if_pos hskip, if_pos hskip, ih]
    · rw [if_neg hskip, if_neg hskip]
      by_cases hfull : items.length = max
      · rw [if_pos hfull, if_pos hfull]
        rfl
      · rw [if_neg hfull, if_neg hfull, ih]

variable {skip : α → Bool} {max : Nat} {xs : List α}

theorem fill_more {front : List α} {y : α} (hmore : max < (xs.filter fun x => !skip x).length)
    (hfound : (xs.filter fun x => !skip x).take max = front ++ [y]) :
    fill skip max [] xs = some (front ++ [y], some y) := by
  simp [fill_gather, gather_eq, hmore, hfound]

theorem fill_last (hlast : (xs.filter fun x => !skip x).length ≤ max) :
    fill skip max [] xs = some (xs.filter fun x => !skip x, none) := by
  simp [fill_gather, gather_eq, not_lt.mpr hlast, List.take_of_length_le hlast]

theorem fill_isSome_iff : (fill skip max [] xs).isSome = true ↔ 0 < max ∨ ∀ x ∈ xs, skip x = true := by
  by_cases hlast : (xs.filter fun x => !skip x).length ≤ max
  · rw [fill_last hlast]
    simp only [Option.isSome_some, true_iff]
    by_cases hmax : 0 < max
    · exact Or.inl hmax
    · have hnil : (xs.filter fun x => !skip x) = [] := List.length_eq_zero_iff.mp (by omega)
      refine Or.inr fun x hx => ?_
      simpa using List.filter_eq_nil_iff.mp hnil x hx
  · have hmore : max < (xs.filter fun x => !skip x).length := not_le.mp hlast
    by_cases hmax : 0 < max
    · obtain ⟨front, y, hfound, -⟩ := Listing.take_eq_append_last hmax hmore
      rw [fill_more hmore hfound]
      simp [hmax]
    · obtain rfl : max = 0 := by omega
      have hne : (xs.filter fun x => !skip x) ≠ [] := List.length_pos_iff.mp hmore
      obtain ⟨x, hx⟩ := List.exists_mem_of_ne_nil _ hne
      have hkept := List.mem_filter.mp hx
      simp only [fill_gather, gather_eq, List.take_zero, decide_eq_true hmore, if_true,
        List.getLast?_nil, Option.map_none, Option.isSome_none, Bool.false_eq_true, lt_irrefl,
        false_or, false_iff, not_forall]
      exact ⟨x, hkept.1, by simpa using hkept.2⟩

end Filling

structure PartsPage where
  partNumberMarker : Nat
  maxParts : Nat
  parts : List (Nat × MpuPart)
  next : Option Nat
deriving DecidableEq

def sortParts (ps : List (Nat × MpuPart)) : List (Nat × MpuPart) :=
  ps.insertionSort fun p q => p.1 ≤ q.1

def mpuListParts (u : MultipartUpload) (maxParts : Option Nat) (marker : Nat) : Option PartsPage :=
  (fill (fun _ => false) (pageLimit maxParts) []
    (sortParts (u.parts.filter fun p => marker < p.1))).map fun found =>
      { partNumberMarker := marker, maxParts := pageLimit maxParts, parts := found.1,
        next := found.2.map Prod.fst }

structure UploadEntry where
  key : Bytes
  uploadID : Bytes
  initiated : Time
deriving DecidableEq

structure UploadsPage where
  keyMarker : Bytes
  uploadIDMarker : Bytes
  maxUploads : Nat
  uploads : List UploadEntry
  next : Option (Bytes × Bytes)
deriving DecidableEq

def MultipartUpload.entry (u : MultipartUpload) : UploadEntry := ⟨u.name, u.id, u.initiated⟩

def sortUploads (us : List MultipartUpload) : List MultipartUpload :=
  us.insertionSort fun u v => u.name < v.name ∨ u.name = v.name ∧ u.id ≤ v.id

def skipsUpload (keyMarker idMarker : Bytes) (u : MultipartUpload) : Bool :=
  decide (keyMarker ≠ [] ∧ (u.name < keyMarker ∨ u.name = keyMarker ∧ u.id ≤ idMarker))

def mpuListUploads (us : List MultipartUpload) (start : Bytes) (maxUploads : Option Nat)
    (keyMarker idMarker : Bytes) : Option UploadsPage :=
  (fill (skipsUpload keyMarker idMarker) (pageLimit maxUploads) []
    (sortUploads (us.filter fun u => start.isPrefixOf u.name))).map fun found =>
      { keyMarker, uploadIDMarker := idMarker, maxUploads := pageLimit maxUploads,
        uploads := found.1.map MultipartUpload.entry,
        next := found.2.map fun last => (last.name, last.id) }

def followParts (u : MultipartUpload) (size : Nat) : Nat → Nat → Option (List (List (Nat × MpuPart)))
  | 0, _ => none
  | fuel + 1, marker =>
    match mpuListParts u (some size) marker with
    | none => none
    | some page =>
      match page.next with
      | none => some [page.parts]
      | some next => (followParts u size fuel next).map (page.parts :: ·)

def UploadEntry.carried (e : UploadEntry) : UploadEntry :=
  { e with key := carry e.key, uploadID := carry e.uploadID }

def followUploads (us : List MultipartUpload) (start : Bytes) (size : Nat) :
    Nat → Bytes × Bytes → Option (List (List UploadEntry))
  | 0, _ => none
  | fuel + 1, marker =>
    match mpuListUploads us start (some size) marker.1 marker.2 with
    | none => none
    | some page =>
      match page.next with
      | none => some [page.uploads.map UploadEntry.carried]
      | some next => (followUploads us start size fuel (carry next.1, carry next.2)).map
          (page.uploads.map UploadEntry.carried :: ·)

theorem pageLimit_pos {size : Nat} : 0 < pageLimit (some size) ↔ 0 < size := by
  by_cases h : size < 1000
  · simp [pageLimit, maxListParts, h]
  · have hmax : pageLimit (some size) = 1000 := if_neg h
    rw [hmax]
    omega

section Parts
variable (u : MultipartUpload)

def partsListing : Listing (Nat × MpuPart) Nat where
  entries := sortParts u.parts
  mark := Prod.fst
  past marker p := decide (marker < p.1)

variable {u}
variable {ps : List (Nat × MpuPart)}

theorem mem_sortParts {p : Nat × MpuPart} : p ∈ sortParts ps ↔ p ∈ ps :=
  List.mem_insertionSort _

theorem sortParts_ordered (h : (ps.map Prod.fst).Nodup) : (sortParts ps).Pairwise fun p q => p.1 < q.1 := by
  have hsorted : (sortParts ps).Pairwise fun p q => p.1 ≤ q.1 := by
    have htotal : Std.Total fun p q : Nat × MpuPart => p.1 ≤ q.1 :=
      ⟨fun p q => le_total p.1 q.1⟩
    have htrans : IsTrans (Nat × MpuPart) fun p q => p.1 ≤ q.1 :=
      ⟨fun _ _ _ hab hbc => hab.trans hbc⟩
    exact List.pairwise_insertionSort _ _
  have hdistinct : ((sortParts ps).map Prod.fst).Nodup :=
    ((List.perm_insertionSort _ ps).map Prod.fst).nodup_iff.mpr h
  have hne : (sortParts ps).Pairwise fun p q => p.1 ≠ q.1 := List.pairwise_map.mp hdistinct
  exact (hsorted.and hne).imp fun hpq => lt_of_le_of_ne hpq.1 hpq.2

theorem sortParts_filter (h : (ps.map Prod.fst).Nodup)
    (keep : Nat × MpuPart → Bool) : sortParts (ps.filter keep) = (sortParts ps).filter keep := by
  have hkept : ((ps.filter keep).map Prod.fst).Nodup := h.sublist (List.filter_sublist.map _)
  have hperm : (sortParts (ps.filter keep)).Perm ((sortParts ps).filter keep) :=
    (List.perm_insertionSort _ _).trans ((List.perm_insertionSort _ ps).symm.filter keep)
  refine hperm.eq_of_pairwise (fun p q _ _ hpq hqp => absurd hpq (lt_asymm hqp))
    (sortParts_ordered hkept) ((sortParts_ordered h).filter keep)

def partCursor (marker : Nat) : Option Nat := if marker = 0 then none else some marker

theorem rest_partsListing (marker : Nat) : sortParts (u.parts.filter fun p => decide (marker < p.1)) =
      (partsListing u).rest (partCursor marker) := by
  rw [sortParts_filter u.distinct, Listing.rest]
  refine List.filter_congr fun p hp => ?_
  have hpos : 1 ≤ p.1 := u.numbered p (mem_sortParts.mp hp)
  by_cases hmarker : marker = 0
  · simp [hmarker, partCursor, Listing.shows, Nat.lt_of_lt_of_le Nat.zero_lt_one hpos]
  · simp [hmarker, partCursor, Listing.shows, partsListing]

theorem followParts_eq {size : Nat} (hsize : 0 < size) (fuel marker : Nat) : followParts u size fuel marker =
      (partsListing u).follow (pageLimit (some size)) fuel (partCursor marker) := by
  induction fuel generalizing marker with
  | zero => rfl
  | succ fuel ih =>
    have hkeep : ((sortParts (u.parts.filter fun p => decide (marker < p.1))).filter
        fun _ => !false) = (partsListing u).rest (partCursor marker) := by
      rw [rest_partsListing]
      simp
    rw [followParts, mpuListParts]
    by_cases hmore : pageLimit (some size) < ((partsListing u).rest (partCursor marker)).length
    · obtain ⟨front, y, hfound, -⟩ :=
        Listing.take_eq_append_last (pageLimit_pos.mpr hsize) hmore
      have hy : y ∈ (partsListing u).rest (partCursor marker) := by
        refine List.mem_of_mem_take (i := pageLimit (some size)) ?_
        rw [hfound]
        simp
      have hpos : 1 ≤ y.1 := u.numbered y (mem_sortParts.mp (List.mem_filter.mp hy).1)
      have hcursor : partCursor y.1 = some y.1 := if_neg (by omega)
      rw [fill_more (hkeep ▸ hmore) (by rw [hkeep, hfound]), Listing.follow_more hmore hfound]
      simp only [Option.map_some, ih, hcursor]
      rfl
    · rw [fill_last (hkeep ▸ not_lt.mp hmore), Listing.follow_last (not_lt.mp hmore), hkeep]
      rfl

theorem followParts_complete {size : Nat} (hsize : 0 < size) :
    ∃ fuel pages, followParts u size fuel 0 = some pages ∧ pages.flatten = sortParts u.parts := by
  have haligned : (partsListing u).Aligned (pageLimit (some size)) := by
    refine Listing.aligned_of_ordered (fun y _ => by simp [partsListing]) ?_
    refine (sortParts_ordered u.distinct).imp fun {y x} hyx => ?_
    simp only [partsListing, decide_eq_true_eq, decide_eq_false_iff_not]
    exact ⟨hyx, lt_asymm hyx⟩
  obtain ⟨fuel, pages, hpages, hflatten⟩ :=
    Listing.complete_of_aligned (pageLimit_pos.mpr hsize) haligned
  exact ⟨fuel, pages, by rw [followParts_eq hsize]; exact hpages, hflatten⟩

end Parts

section Uploads
variable (us : List MultipartUpload) (start : Bytes)

def listedUploads : List MultipartUpload :=
  sortUploads (us.filter fun u => start.isPrefixOf u.name)

def uploadsListing : Listing MultipartUpload (Bytes × Bytes) where
  entries := listedUploads us start
  mark u := (carry u.name, carry u.id)
  past marker u := !skipsUpload marker.1 marker.2 u

variable {us start}
variable {u : MultipartUpload}

theorem mem_listedUploads : u ∈ listedUploads us start ↔ u ∈ us ∧ start <+: u.name := by
  simp [listedUploads, sortUploads, List.isPrefixOf_iff_prefix]

def UploadBefore (u v : MultipartUpload) : Prop := u.name < v.name ∨ u.name = v.name ∧ u.id < v.id

theorem listedUploads_ordered (h : (us.map MultipartUpload.id).Nodup) :
    (listedUploads us start).Pairwise UploadBefore := by
  have hsorted : (listedUploads us start).Pairwise fun u v =>
      u.name < v.name ∨ u.name = v.name ∧ u.id ≤ v.id := by
    have htotal : Std.Total fun u v : MultipartUpload =>
        u.name < v.name ∨ u.name = v.name ∧ u.id ≤ v.id := by
      refine ⟨fun u v => ?_⟩
      by_cases hlt : u.name < v.name
      · exact Or.inl (Or.inl hlt)
      · rcases List.le_iff_lt_or_eq.mp (List.not_lt.mp hlt) with hlt' | heq
        · exact Or.inr (Or.inl hlt')
        · rcases List.le_total u.id v.id with hle | hle
          · exact Or.inl (Or.inr ⟨heq.symm, hle⟩)
          · exact Or.inr (Or.inr ⟨heq, hle⟩)
    have htrans : IsTrans MultipartUpload fun u v =>
        u.name < v.name ∨ u.name = v.name ∧ u.id ≤ v.id := by
      refine ⟨fun u v w huv hvw => ?_⟩
      rcases huv with huv | ⟨heq, huv⟩
      · rcases hvw with hvw | ⟨heq, -⟩
        · exact Or.inl (List.lt_trans huv hvw)
        · exact Or.inl (heq ▸ huv)
      · rcases hvw with hvw | ⟨heq', hvw⟩
        · exact Or.inl (heq ▸ hvw)
        · exact Or.inr ⟨heq.trans heq', List.le_trans huv hvw⟩
    exact List.pairwise_insertionSort _ _
  have hdistinct : ((listedUploads us start).map MultipartUpload.id).Nodup := by
    refine ((List.perm_insertionSort _ _).map MultipartUpload.id).nodup_iff.mpr ?_
    exact h.sublist (List.filter_sublist.map _)
  have hne : (listedUploads us start).Pairwise fun u v => u.id ≠ v.id :=
    List.pairwise_map.mp hdistinct
  refine (hsorted.and hne).imp fun {u v} huv => ?_
  rcases huv.1 with hlt | ⟨heq, hle⟩
  · exact Or.inl hlt
  · exact Or.inr ⟨heq, (List.le_iff_lt_or_eq.mp hle).resolve_right huv.2⟩

theorem skips_self (u : MultipartUpload) : skipsUpload u.name u.id u = true :=
  decide_eq_true ⟨u.named, Or.inr ⟨rfl, List.le_refl _⟩⟩

theorem skips_earlier {v : MultipartUpload} (h : UploadBefore u v) : skipsUpload v.name v.id u = true := by
  refine decide_eq_true ⟨v.named, ?_⟩
  rcases h with hlt | ⟨heq, hlt⟩
  · exact Or.inl hlt
  · exact Or.inr ⟨heq, List.le_of_lt hlt⟩

theorem shows_later {v : MultipartUpload} (h : UploadBefore u v) : skipsUpload u.name u.id v = false := by
  refine decide_eq_false fun hskip => ?_
  rcases h with hlt | ⟨heq, hlt⟩
  · rcases hskip.2 with hlt' | ⟨heq', -⟩
    · exact List.lt_irrefl _ (List.lt_trans hlt hlt')
    · exact List.lt_irrefl _ (heq' ▸ hlt)
  · rcases hskip.2 with hlt' | ⟨-, hle⟩
    · exact List.lt_irrefl _ (heq ▸ hlt')
    · exact List.not_lt.mpr hle hlt

variable {size : Nat}

theorem uploadsListing_aligned (h : (us.map MultipartUpload.id).Nodup)
    (hcarried : ∀ u ∈ us, start <+: u.name → Carried u.name) :
    (uploadsListing us start).Aligned size := by
  have hmark : ∀ u ∈ listedUploads us start, (uploadsListing us start).mark u = (u.name, u.id) := by
    intro u hu
    obtain ⟨hmem, hstart⟩ := mem_listedUploads.mp hu
    exact Prod.ext (hcarried u hmem hstart) u.plain
  refine Listing.aligned_of_ordered ?_ ?_
  · intro u hu
    rw [hmark u hu]
    simp [uploadsListing, skips_self]
  · refine (listedUploads_ordered h).imp_of_mem fun {u v} hu hv huv => ?_
    rw [hmark u hu, hmark v hv]
    simp [uploadsListing, shows_later huv, skips_earlier huv]

def uploadCursor (marker : Bytes × Bytes) : Option (Bytes × Bytes) :=
  if marker.1 = [] then none else some marker

theorem rest_uploadsListing (marker : Bytes × Bytes) :
    ((listedUploads us start).filter fun u => !skipsUpload marker.1 marker.2 u) =
      (uploadsListing us start).rest (uploadCursor marker) := by
  rw [Listing.rest]
  refine List.filter_congr fun u _ => ?_
  by_cases hmarker : marker.1 = []
  · simp [hmarker, uploadCursor, Listing.shows, skipsUpload]
  · simp [hmarker, uploadCursor, Listing.shows, uploadsListing]

theorem carry_ne_nil {s : Bytes} (h : Carried s) (hne : s ≠ []) : carry s ≠ [] := by
  rw [h]
  exact hne

theorem followUploads_eq (hsize : 0 < size)
    (hcarried : ∀ u ∈ us, start <+: u.name → Carried u.name) (fuel : Nat) (marker : Bytes × Bytes) :
    followUploads us start size fuel marker =
      ((uploadsListing us start).follow (pageLimit (some size)) fuel (uploadCursor marker)).map
        fun pages => pages.map fun page => page.map fun u => u.entry.carried := by
  induction fuel generalizing marker with
  | zero => rfl
  | succ fuel ih =>
    have hkeep : ((listedUploads us start).filter fun u => !skipsUpload marker.1 marker.2 u) =
        (uploadsListing us start).rest (uploadCursor marker) := rest_uploadsListing marker
    rw [followUploads, mpuListUploads]
    by_cases hmore : pageLimit (some size) < ((uploadsListing us start).rest (uploadCursor marker)).length
    · obtain ⟨front, y, hfound, -⟩ :=
        Listing.take_eq_append_last (pageLimit_pos.mpr hsize) hmore
      have hy : y ∈ (uploadsListing us start).rest (uploadCursor marker) := by
        refine List.mem_of_mem_take (i := pageLimit (some size)) ?_
        rw [hfound]
        simp
      obtain ⟨hmem, hstart⟩ := mem_listedUploads.mp (List.mem_filter.mp hy).1
      have hcursor : uploadCursor (carry y.name, carry y.id) = some (carry y.name, carry y.id) :=
        if_neg (carry_ne_nil (hcarried y hmem hstart) y.named)
      have hfill : fill (skipsUpload marker.1 marker.2) (pageLimit (some size)) []
          (sortUploads (us.filter fun u => start.isPrefixOf u.name)) = some (front ++ [y], some y) :=
        fill_more (hkeep ▸ hmore) (hkeep ▸ hfound)
      rw [hfill, Listing.follow_more hmore hfound]
      simp only [Option.map_some, ih, hcursor, List.map_map, Option.map_map]
      rfl
    · have hfill : fill (skipsUpload marker.1 marker.2) (pageLimit (some size)) []
          (sortUploads (us.filter fun u => start.isPrefixOf u.name)) =
            some ((uploadsListing us start).rest (uploadCursor marker), none) := by
        rw [← hkeep]
        exact fill_last (hkeep ▸ not_lt.mp hmore)
      rw [hfill, Listing.follow_last (not_lt.mp hmore)]
      simp only [Option.map_some, Option.map_none, List.map_map, List.map_cons, List.map_nil]
      rfl

theorem carried_of_followUploads {fuel : Nat} {marker : Bytes × Bytes}
    {pages : List (List UploadEntry)} (h : followUploads us start size fuel marker = some pages) :
    ∀ e ∈ pages.flatten, Carried e.key := by
  induction fuel generalizing marker pages with
  | zero => cases h
  | succ fuel ih =>
    rw [followUploads] at h
    split at h
    · cases h
    · rename_i page _
      have hpage : ∀ e ∈ page.uploads.map UploadEntry.carried, Carried e.key := by
        intro e he
        obtain ⟨e', -, rfl⟩ := List.mem_map.mp he
        exact carried_carry e'.key
      split at h
      · obtain rfl := Option.some.inj h
        simpa using hpage
      · obtain ⟨pages', hpages', rfl⟩ := Option.map_eq_some_iff.mp h
        intro e he
        rcases List.mem_append.mp he with hfirst | hrest
        · exact hpage e hfirst
        · exact ih hpages' e hrest

theorem followUploads_complete_iff (hsize : 0 < size) (h : (us.map MultipartUpload.id).Nodup) :
    (∃ fuel pages, followUploads us start size fuel ([], []) = some pages ∧
      pages.flatten = (listedUploads us start).map MultipartUpload.entry) ↔
        ∀ u ∈ us, start <+: u.name → Carried u.name := by
  constructor
  · rintro ⟨fuel, pages, hpages, hflatten⟩ u hu hstart
    refine carried_of_followUploads hpages u.entry ?_
    rw [hflatten]
    exact List.mem_map_of_mem (mem_listedUploads.mpr ⟨hu, hstart⟩)
  · intro hcarried
    obtain ⟨fuel, pages, hpages, hflatten⟩ := Listing.complete_of_aligned
      (pageLimit_pos.mpr hsize) (uploadsListing_aligned h hcarried)
    refine ⟨fuel, pages.map fun page => page.map fun u => u.entry.carried, ?_, ?_⟩
    · rw [followUploads_eq hsize hcarried]
      simp only [uploadCursor, if_true]
      rw [hpages]
      rfl
    · have hlisted : pages.flatten = listedUploads us start := hflatten
      rw [← List.map_flatten, hlisted]
      refine List.map_congr_left fun u hu => ?_
      obtain ⟨hmem, hstart⟩ := mem_listedUploads.mp hu
      have hname : carry u.name = u.name := hcarried u hmem hstart
      have hid : carry u.id = u.id := u.plain
      simp [MultipartUpload.entry, UploadEntry.carried, hname, hid]

end Uploads

section Listings

structure UploadStore where
  uploads : List MultipartUpload
  distinct : (uploads.map MultipartUpload.id).Nodup

structure ListRequest where
  maxParts : Nat
  partNumberMarker : Nat
  start : Bytes
  maxUploads : Nat
  keyMarker : Bytes
  uploadIDMarker : Bytes

structure ListsAll (st : UploadStore) (u : MultipartUpload) (r : ListRequest) : Prop where
  parts_total : (mpuListParts u (some r.maxParts) r.partNumberMarker).isSome = true
  uploads_total : (mpuListUploads st.uploads r.start (some r.maxUploads) r.keyMarker
    r.uploadIDMarker).isSome = true
  parts_complete : 0 < r.maxParts → ∃ fuel pages,
    followParts u r.maxParts fuel 0 = some pages ∧ pages.flatten = sortParts u.parts
  uploads_complete : 0 < r.maxUploads → ∃ fuel pages,
    followUploads st.uploads r.start r.maxUploads fuel ([], []) = some pages ∧
      pages.flatten = (listedUploads st.uploads r.start).map MultipartUpload.entry

structure Listable (st : UploadStore) (u : MultipartUpload) (r : ListRequest) : Prop where
  parts : 0 < r.maxParts ∨ ∀ p ∈ u.parts, p.1 ≤ r.partNumberMarker
  uploads : 0 < r.maxUploads ∨ ∀ v ∈ st.uploads, r.start <+: v.name →
    r.keyMarker ≠ [] ∧
      (v.name < r.keyMarker ∨ v.name = r.keyMarker ∧ v.id ≤ r.uploadIDMarker)
  carried : 0 < r.maxUploads → ∀ v ∈ st.uploads, r.start <+: v.name → Carried v.name

theorem mpuListParts_isSome_iff (u : MultipartUpload) (n marker : Nat) :
    (mpuListParts u (some n) marker).isSome = true ↔ 0 < n ∨ ∀ p ∈ u.parts, p.1 ≤ marker := by
  rw [mpuListParts, Option.isSome_map, fill_isSome_iff, pageLimit_pos]
  refine or_congr_right ⟨fun h p hp => ?_, fun h p hp => ?_⟩
  · by_contra hgt
    have hlisted : p ∈ sortParts (u.parts.filter fun q => decide (marker < q.1)) :=
      mem_sortParts.mpr (List.mem_filter.mpr ⟨hp, decide_eq_true (not_le.mp hgt)⟩)
    exact absurd (h p hlisted) Bool.false_ne_true
  · obtain ⟨hmem, hgt⟩ := List.mem_filter.mp (mem_sortParts.mp hp)
    exact absurd (of_decide_eq_true hgt) (not_lt.mpr (h p hmem))

theorem mpuListUploads_isSome_iff (us : List MultipartUpload) (start : Bytes) (n : Nat)
    (keyMarker idMarker : Bytes) :
    (mpuListUploads us start (some n) keyMarker idMarker).isSome = true ↔ 0 < n ∨ ∀ v ∈ us, start <+: v.name →
        keyMarker ≠ [] ∧ (v.name < keyMarker ∨ v.name = keyMarker ∧ v.id ≤ idMarker) := by
  rw [mpuListUploads, Option.isSome_map, fill_isSome_iff, pageLimit_pos]
  refine or_congr_right ⟨fun h v hv hstart => ?_, fun h v hv => ?_⟩
  · exact of_decide_eq_true (h v (mem_listedUploads.mpr ⟨hv, hstart⟩))
  · obtain ⟨hmem, hstart⟩ := mem_listedUploads.mp hv
    exact decide_eq_true (h v hmem hstart)

theorem listsAll_iff (st : UploadStore) (u : MultipartUpload) (r : ListRequest) :
    ListsAll st u r ↔ Listable st u r := by
  constructor
  · intro h
    exact ⟨(mpuListParts_isSome_iff u r.maxParts r.partNumberMarker).mp h.parts_total,
      (mpuListUploads_isSome_iff st.uploads r.start r.maxUploads r.keyMarker
        r.uploadIDMarker).mp h.uploads_total,
      fun hsize => (followUploads_complete_iff hsize st.distinct).mp (h.uploads_complete hsize)⟩
  · intro h
    exact ⟨(mpuListParts_isSome_iff u r.maxParts r.partNumberMarker).mpr h.parts,
      (mpuListUploads_isSome_iff st.uploads r.start r.maxUploads r.keyMarker r.uploadIDMarker).mpr h.uploads,
      fun hsize => followParts_complete hsize,
      fun hsize => (followUploads_complete_iff hsize st.distinct).mpr (h.carried hsize)⟩

def onePart : MultipartUpload where
  id := ascii "a"
  name := ascii "video"
  initiated := 0
  parts := [(1, ⟨5, ascii "md5", 0⟩)]
  plain := by decide
  named := by decide
  distinct := by decide
  numbered := by decide

def controlName : MultipartUpload where
  id := ascii "b"
  name := [1]
  initiated := 0
  parts := []
  plain := by decide
  named := by decide
  distinct := by decide
  numbered := by decide

theorem empty_page_panics : mpuListParts onePart (some 0) 0 = none ∧
      mpuListUploads [onePart] [] (some 0) [] [] = none ∧
        followUploads [controlName, onePart] [] 1 3 ([], []) = some [[⟨replacement, ascii "b", 0⟩], []] ∧
          ¬ ListsAll ⟨[onePart], by decide⟩ onePart ⟨0, 0, [], 0, [], []⟩ := by
  refine ⟨by decide +kernel, by decide +kernel, by decide +kernel, fun h => ?_⟩
  exact absurd h.parts_total (by decide +kernel)

end Listings

end CloudBurrow.Storage.Multipart
