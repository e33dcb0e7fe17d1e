import CloudBurrow.Codec.PaddedDecimal
import CloudBurrow.Paging.Positions
import CloudBurrow.Paging.Walk

namespace CloudBurrow.Kms

open Utf8 JsonText ParseInt PaddedDecimal Paging Positions

inductive Kind where
  | rings
  | keys
  | versions
deriving DecidableEq

structure Listing where
  kind : Kind
  parent : Bytes
  filter : Bytes
  desc : Bool
  parentText : Valid parent
  filterText : Valid filter

def byName (a b : Bytes) : Bool := decide (a < b)

def lastPart (name : Bytes) : Bytes := (name.reverse.takeWhile (· ≠ 47)).reverse

def versionNumber (name : Bytes) : Int := (parseInt64 (lastPart name)).1

def byVersionNumber (a b : Bytes) : Bool := decide (versionNumber a < versionNumber b)

def ordinal (i : Nat) : Bytes := padded 10 i

def ordinals (n : Nat) : List Bytes := (List.range n).map ordinal

def orderedPage (scope : Bytes) (names : List Bytes) (less : Bytes → Bytes → Bool) (desc : Bool)
    (token : Bytes) (size : Int) : Except TokenError (List Bytes × Bytes) := do
  let sorted := sorted (fun a b => (if desc then less b a else less a b) = true) names
  let keys := ordinals sorted.length
  let byKey (k : Bytes) : Bytes := ((keys.zip sorted).lookup k).getD []
  let order := if desc then ascii "desc" else ascii "asc"
  let (page, next) ← page (scope ++ ascii "|order=" ++ order) keys token size
  pure (page.map byKey, next)

namespace Listing
variable (l : Listing)

def scope : Bytes :=
  let collection :=
    match l.kind with
    | .rings => ascii "kms-rings:"
    | .keys => ascii "kms-keys:"
    | .versions => ascii "kms-versions:"
  collection ++ l.parent ++ ascii "|filter=" ++ l.filter

def less : Bytes → Bytes → Bool :=
  match l.kind with
  | .rings | .keys => byName
  | .versions => byVersionNumber

def list (names : List Bytes) (token : Bytes) (size : Int) : Except TokenError (List Bytes × Bytes) :=
  orderedPage l.scope names l.less l.desc token size

def before (a b : Bytes) : Prop := (if l.desc then l.less b a else l.less a b) = true

instance : DecidableRel l.before := fun _ _ => inferInstanceAs (Decidable (_ = true))

def Named (n : Bytes) : Prop :=
  match l.kind with
  | .rings | .keys => True
  | .versions => ∃ k < 2 ^ 63, n = l.parent ++ ascii "/cryptoKeyVersions/" ++ decimal k

end Listing

structure Walk where
  names : List Bytes
  token : Option Bytes
  shown : List Bytes
  throughout : List Bytes
  refused : Bool
deriving DecidableEq

inductive Step where
  | create (n : Bytes)
  | delete (n : Bytes)
  | next (size : Int)
deriving DecidableEq

def Walk.start (names : List Bytes) : Walk := ⟨names, some [], [], names, false⟩

def Walk.ask (l : Listing) (w : Walk) (token : Bytes) (size : Int) : Walk :=
  match l.list w.names token size with
  | .error _ => { w with refused := true }
  | .ok (found, next) =>
    { w with
      token := if next = [] then none else some next
      shown := w.shown ++ found
      throughout := if token = [] then w.names else w.throughout }

def Walk.step (l : Listing) (w : Walk) : Step → Walk
  | .create n => if n ∈ w.names then w else { w with names := w.names ++ [n] }
  | .delete n =>
    { w with
      names := w.names.erase n
      throughout := if w.token = none then w.throughout else w.throughout.filter (· ≠ n) }
  | .next size =>
    match w.token with
    | none => w
    | some token => w.ask l token size

def Walk.run (l : Listing) (w : Walk) (steps : List Step) : Walk := steps.foldl (Walk.step l) w

structure Walk.Lossless (l : Listing) (w : Walk) : Prop where
  accepted : w.refused = false
  ordered : w.shown.Pairwise l.before
  once : w.token = none → ∀ n ∈ w.throughout, w.shown.count n = 1
  ends : ∀ sizes : List Int, w.names.length < sizes.length →
    (w.run l (sizes.map Step.next)).token = none

def Walk.Clear (l : Listing) (w : Walk) : Step → Prop
  | .create n => n ∉ w.names →
      l.Named n ∧ w.names.length < 10 ^ 10 ∧ (w.token ≠ none → Past l.before w.shown n)
  | .delete n => n ∈ w.names → w.token ≠ none → Past l.before w.shown n
  | .next _ => True

def Walk.AllClear (l : Listing) : Walk → List Step → Prop
  | _, [] => True
  | w, s :: rest => w.Clear l s ∧ AllClear l (w.step l s) rest

section Order
variable (l : Listing)

theorem strictWeak_byName : StrictWeak fun a b => byName a b = true := by
  simp only [byName, decide_eq_true_eq]
  exact StrictWeak.of_text fun n => n

theorem strictWeak_byVersionNumber : StrictWeak fun a b => byVersionNumber a b = true := by
  simp only [byVersionNumber, decide_eq_true_eq]
  exact StrictWeak.of_key versionNumber

theorem Listing.strictWeak_less : StrictWeak fun a b => l.less a b = true := by
  unfold Listing.less
  cases l.kind with
  | rings | keys => exact strictWeak_byName
  | versions => exact strictWeak_byVersionNumber

theorem Listing.strictWeak : StrictWeak l.before := by
  unfold Listing.before
  cases l.desc with
  | false => exact l.strictWeak_less
  | true => exact l.strictWeak_less.flip

theorem versionNumber_eq (parent : Bytes) {k : Nat} (h : k < 2 ^ 63) :
    versionNumber (parent ++ ascii "/cryptoKeyVersions/" ++ decimal k) = k := by
  have hslash : ∀ b ∈ (decimal k).reverse, decide (b ≠ 47) = true := by
    intro b hb
    refine decide_eq_true ?_
    rintro rfl
    exact absurd (decimal_digits k 47 (List.mem_reverse.mp hb)) (by decide)
  have hsplit : parent ++ ascii "/cryptoKeyVersions/" = parent ++ ascii "/cryptoKeyVersions" ++ [47] := by
    rw [List.append_assoc]
    rfl
  have hlast : lastPart (parent ++ ascii "/cryptoKeyVersions/" ++ decimal k) = decimal k := by
    rw [lastPart, hsplit, List.reverse_append, List.takeWhile_append_of_pos hslash, List.reverse_append]
    simp
  rw [versionNumber, hlast, parseInt64_of_parseInt (parseInt_decimal h)]

theorem Listing.less_total {a b : Bytes} (ha : l.Named a) (hb : l.Named b) (hne : a ≠ b) :
    l.less a b = true ∨ l.less b a = true := by
  have hnames : byName a b = true ∨ byName b a = true := by
    simp only [byName, decide_eq_true_eq]
    rcases List.le_total a b with hle | hle
    · exact Or.inl ((List.le_iff_lt_or_eq.mp hle).resolve_right hne)
    · exact Or.inr ((List.le_iff_lt_or_eq.mp hle).resolve_right hne.symm)
  unfold Listing.Named at ha hb
  unfold Listing.less
  cases hkind : l.kind with
  | rings => exact hnames
  | keys => exact hnames
  | versions =>
    simp only [hkind] at ha hb
    obtain ⟨i, hi, rfl⟩ := ha
    obtain ⟨j, hj, rfl⟩ := hb
    have hij : i ≠ j := fun hsame => hne (by rw [hsame])
    simp only [byVersionNumber, versionNumber_eq l.parent hi, versionNumber_eq l.parent hj,
      decide_eq_true_eq, Nat.cast_lt]
    exact lt_or_gt_of_ne hij

theorem Listing.ranked {names : List Bytes} (h : ∀ n ∈ names, l.Named n) : Ranked l.before names := by
  intro a ha b hb hne
  have htotal := l.less_total (h a ha) (h b hb) hne
  unfold Listing.before
  cases l.desc with
  | false => exact htotal
  | true => exact htotal.symm

end Order

section Pages

def cursor : Nat → Bytes
  | 0 => []
  | i + 1 => ordinal i

theorem ordinal_lt {i j : Nat} (hi : i < 10 ^ 10) (hj : j < 10 ^ 10) : ordinal i < ordinal j ↔ i < j :=
  padded_lt_padded (by norm_num) hi hj

theorem ordinals_ascending {n : Nat} (hn : n ≤ 10 ^ 10) : (ordinals n).Pairwise (· < ·) := by
  rw [ordinals, List.pairwise_map]
  refine List.pairwise_lt_range.imp_of_mem fun hi hj hlt => ?_
  exact (ordinal_lt ((List.mem_range.mp hi).trans_le hn) ((List.mem_range.mp hj).trans_le hn)).mpr hlt

theorem listing_ordinals {n : Nat} (hn : n ≤ 10 ^ 10) : Paging.Listing (ordinals n) := by
  refine ⟨nodup_of_ascending (ordinals_ascending hn), fun k hk => ?_, fun k hk => ?_⟩
  · obtain ⟨i, -, rfl⟩ := List.mem_map.mp hk
    exact padded_ne_nil 10 i
  · obtain ⟨i, -, rfl⟩ := List.mem_map.mp hk
    exact valid_padded 10 i

theorem drop_ordinals (n k : Nat) : (ordinals n).drop k = (List.range' k (n - k)).map ordinal := by
  rw [ordinals, ← List.map_drop, List.range_eq_range', List.drop_range']
  simp

theorem cursor_lt {k i : Nat} (hk : k ≤ 10 ^ 10) (hi : i < 10 ^ 10) : cursor k < ordinal i ↔ k ≤ i := by
  cases k with
  | zero =>
    obtain ⟨b, u, hbu⟩ := List.exists_cons_of_ne_nil (padded_ne_nil 10 i)
    rw [cursor, ordinal, hbu]
    exact iff_of_true (List.nil_lt_cons b u) (Nat.zero_le i)
  | succ k => exact ordinal_lt hk hi

theorem later_ordinals {n k : Nat} (hn : n ≤ 10 ^ 10) (hk : k ≤ 10 ^ 10) :
    later (ordinals n) (cursor k) = (ordinals n).drop k := by
  refine eq_of_ascending (later_ascending (listing_ordinals hn).nodup _) (ordinals_ascending hn).drop ?_
  intro key
  rw [mem_later, drop_ordinals, ordinals, List.mem_map, List.mem_map]
  constructor
  · rintro ⟨⟨i, hi, rfl⟩, hlt⟩
    rw [List.mem_range] at hi
    have hki := (cursor_lt hk (by omega)).mp hlt
    exact ⟨i, List.mem_range'_1.mpr (by omega), rfl⟩
  · rintro ⟨i, hi, rfl⟩
    rw [List.mem_range'_1] at hi
    exact ⟨⟨i, List.mem_range.mpr (by omega), rfl⟩, (cursor_lt hk (by omega)).mpr hi.1⟩

theorem map_lookup_zip {keys vals : List Bytes} (hnodup : keys.Nodup) (hlen : keys.length = vals.length) :
    keys.map (fun k => ((keys.zip vals).lookup k).getD []) = vals := by
  induction keys generalizing vals with
  | nil => exact (List.eq_nil_of_length_eq_zero hlen.symm).symm
  | cons k keys ih =>
    obtain ⟨v, vals, rfl⟩ := List.exists_cons_of_length_eq_add_one hlen.symm
    obtain ⟨hk, hkeys⟩ := List.nodup_cons.mp hnodup
    have hrest := ih hkeys (by simpa using hlen)
    rw [List.map_cons, List.zip_cons_cons, List.lookup_cons_self, Option.getD_some]
    refine congrArg (v :: ·) (Eq.trans (List.map_congr_left fun k' hk' => ?_) hrest)
    have hne : (k' == k) = false := by
      rw [beq_eq_false_iff_ne]
      rintro rfl
      exact hk hk'
    rw [List.lookup_cons, hne]

variable {l : Listing} {names : List Bytes} {token : Bytes} {size : Int} {k : Nat}

def Listing.tokenScope (l : Listing) : Bytes :=
  l.scope ++ ascii "|order=" ++ if l.desc then ascii "desc" else ascii "asc"

theorem Listing.valid_tokenScope (l : Listing) : Valid l.tokenScope := by
  have hcollection : ∀ t, Valid t → Valid (l.scope ++ t) := by
    intro t ht
    unfold Listing.scope
    cases l.kind <;>
    · simp only [List.append_assoc]
      exact (valid_append _ (by decide)).mpr ((valid_append _ l.parentText).mpr
        ((valid_append _ (by decide)).mpr ((valid_append _ l.filterText).mpr ht)))
  rw [Listing.tokenScope, List.append_assoc]
  refine hcollection _ ?_
  cases l.desc with
  | false => exact (by decide : Valid (ascii "|order=" ++ ascii "asc"))
  | true => exact (by decide : Valid (ascii "|order=" ++ ascii "desc"))

theorem getLast?_page {n m : Nat} (hm : 1 ≤ m) (hlt : m < n - k) :
    (((ordinals n).drop k).take m).getLast? = some (cursor (k + m)) := by
  obtain ⟨m, rfl⟩ := Nat.exists_eq_add_of_le' hm
  have hlen : (((ordinals n).drop k).take (m + 1)).length = m + 1 := by
    simp only [ordinals, List.length_take, List.length_drop, List.length_map, List.length_range]
    omega
  have hat : (List.range n)[k + m]? = some (k + m) := List.getElem?_range (by omega)
  rw [List.getLast?_eq_getElem?, hlen, Nat.add_sub_cancel, List.getElem?_take_of_lt (Nat.lt_succ_self m),
    List.getElem?_drop, ordinals, List.getElem?_map, hat]
  rfl

theorem Listing.list_eq (hnames : names.length ≤ 10 ^ 10) (hk : k ≤ 10 ^ 10)
    (htoken : Resumes l.tokenScope token (cursor k)) :
    l.list names token size = .ok (((sorted l.before names).drop k).take (clampPageSize size),
      if clampPageSize size < names.length - k then
        encodeToken l.tokenScope (cursor (k + clampPageSize size)) else []) := by
  have hlen : (sorted l.before names).length = names.length := perm_sorted.length_eq
  rw [← hlen] at hnames ⊢
  have hlisting := listing_ordinals hnames
  have hpage := page_eq hlisting htoken size
  have hcount : ((ordinals (sorted l.before names).length).drop k).length =
      (sorted l.before names).length - k := by
    simp [ordinals]
  rw [later_ordinals hnames hk, hcount] at hpage
  have hnext : (if clampPageSize size < (sorted l.before names).length - k then
        encodeToken l.tokenScope ((((ordinals (sorted l.before names).length).drop k).take
          (clampPageSize size)).getLast?.getD []) else []) =
      if clampPageSize size < (sorted l.before names).length - k then
        encodeToken l.tokenScope (cursor (k + clampPageSize size)) else [] := by
    refine if_ctx_congr Iff.rfl (fun hmore => ?_) fun _ => rfl
    rw [getLast?_page (one_le_clampPageSize size) hmore, Option.getD_some]
  have hfound : (((ordinals (sorted l.before names).length).drop k).take (clampPageSize size)).map
        (fun key => (((ordinals (sorted l.before names).length).zip
          (sorted l.before names)).lookup key).getD []) =
      ((sorted l.before names).drop k).take (clampPageSize size) := by
    rw [List.map_take, List.map_drop, map_lookup_zip hlisting.nodup (by simp [ordinals])]
  rw [hnext] at hpage
  rw [← hfound]
  change (page l.tokenScope (ordinals (sorted l.before names).length) token size).bind _ = _
  rw [hpage]
  rfl

end Pages

namespace Walk
variable {l : Listing} {w : Walk}

structure Sound (l : Listing) (w : Walk) : Prop where
  nodup : w.names.Nodup
  named : ∀ n ∈ w.names, l.Named n
  small : w.names.length ≤ 10 ^ 10
  accepted : w.refused = false
  front : w.token ≠ none → w.shown <+: sorted l.before w.names
  resumes : ∀ t, w.token = some t → Resumes l.tokenScope t (cursor w.shown.length)
  present : ∀ t, w.token = some t → t ≠ [] → ∀ n ∈ w.throughout, n ∈ w.names
  ordered : w.token = none → w.shown.Pairwise l.before
  all : w.token = none → ∀ n ∈ w.throughout, n ∈ w.shown

theorem sound_start {names : List Bytes} (hnodup : names.Nodup) (hnamed : ∀ n ∈ names, l.Named n)
    (hsmall : names.length ≤ 10 ^ 10) : (start names).Sound l where
  nodup := hnodup
  named := hnamed
  small := hsmall
  accepted := rfl
  front := fun _ => List.nil_prefix
  resumes := by
    rintro t ht
    rw [← Option.some.inj ht]
    exact resumes_first _
  present := fun t ht hne => absurd (Option.some.inj ht).symm hne
  ordered := fun h => nomatch h
  all := fun h => nomatch h

theorem Sound.pairwise (h : w.Sound l) : (sorted l.before w.names).Pairwise l.before :=
  pairwise_sorted l.strictWeak h.nodup (l.ranked h.named)

theorem Sound.length_shown_le (h : w.Sound l) (hunder : w.token ≠ none) : w.shown.length ≤ w.names.length :=
  (h.front hunder).length_le.trans_eq perm_sorted.length_eq

theorem Sound.ask_eq (h : w.Sound l) {t : Bytes} (ht : w.token = some t) (size : Int) : w.ask l t size =
      { w with
        token := if clampPageSize size < w.names.length - w.shown.length then
          some (encodeToken l.tokenScope (cursor (w.shown.length + clampPageSize size))) else none
        shown := (sorted l.before w.names).take (w.shown.length + clampPageSize size)
        throughout := if t = [] then w.names else w.throughout } := by
  have hunder : w.token ≠ none := by simp [ht]
  have hle := h.length_shown_le hunder
  have hshown : w.shown ++ ((sorted l.before w.names).drop w.shown.length).take (clampPageSize size) =
      (sorted l.before w.names).take (w.shown.length + clampPageSize size) := by
    rw [List.take_add, ← List.prefix_iff_eq_take.mp (h.front hunder)]
  rw [ask, Listing.list_eq h.small (hle.trans h.small) (h.resumes t ht)]
  by_cases hmore : clampPageSize size < w.names.length - w.shown.length
  · simp only [if_pos hmore, hshown, if_neg (encodeToken_ne_nil _ _)]
  · simp only [if_neg hmore, hshown, if_true]

theorem Sound.ask (h : w.Sound l) {t : Bytes} (ht : w.token = some t) (size : Int) :
    (w.ask l t size).Sound l := by
  have hpresent : ∀ n ∈ (if t = [] then w.names else w.throughout), n ∈ w.names := by
    split_ifs with hfirst
    · exact fun n hn => hn
    · exact h.present t ht hfirst
  have hlen : (sorted l.before w.names).length = w.names.length := perm_sorted.length_eq
  rw [h.ask_eq ht]
  by_cases hmore : clampPageSize size < w.names.length - w.shown.length
  · simp only [if_pos hmore]
    refine ⟨h.nodup, h.named, h.small, h.accepted, fun _ => List.take_prefix _ _, ?_,
      fun _ _ _ => hpresent, ?_, ?_⟩
    · rintro t' ht'
      have hcut : ((sorted l.before w.names).take (w.shown.length + clampPageSize size)).length =
          w.shown.length + clampPageSize size := by
        rw [List.length_take, hlen]
        omega
      rw [← Option.some.inj ht']
      dsimp only
      rw [hcut]
      refine resumes_encodeToken l.valid_tokenScope ?_
      cases hcursor : w.shown.length + clampPageSize size with
      | zero => exact (by decide : Valid [])
      | succ i => exact valid_padded 10 i
    all_goals exact fun hover => nomatch hover
  · have hall : (sorted l.before w.names).take (w.shown.length + clampPageSize size) =
        sorted l.before w.names := List.take_of_length_le (by omega)
    simp only [if_neg hmore, hall]
    refine ⟨h.nodup, h.named, h.small, h.accepted, ?_, ?_, ?_, fun _ => h.pairwise, fun _ n hn => ?_⟩
    · exact fun hunder => absurd rfl hunder
    · exact fun _ ht' => nomatch ht'
    · exact fun _ ht' => nomatch ht'
    · exact mem_sorted.mpr (hpresent n hn)

theorem Sound.create (h : w.Sound l) {n : Bytes} (hnew : n ∉ w.names) (hnamed : l.Named n)
    (hroom : w.names.length < 10 ^ 10) (hpast : w.token ≠ none → Past l.before w.shown n) :
    ({ w with names := w.names ++ [n] } : Walk).Sound l := by
  have hnodup : (w.names ++ [n]).Nodup := by
    refine List.nodup_append.mpr ⟨h.nodup, List.nodup_singleton n, fun a ha b hb => ?_⟩
    rw [List.mem_singleton.mp hb]
    exact ne_of_mem_of_not_mem ha hnew
  have hall : ∀ m ∈ w.names ++ [n], l.Named m := by
    intro m hm
    rcases List.mem_append.mp hm with hm | hm
    · exact h.named m hm
    · rwa [List.mem_singleton.mp hm]
  refine ⟨hnodup, hall, by simpa using hroom, h.accepted, fun hunder => ?_, h.resumes, ?_, h.ordered, h.all⟩
  · exact shown_create l.strictWeak hnodup (l.ranked hall) (h.front hunder) (hpast hunder)
  · exact fun t ht hne m hm => List.mem_append_left _ (h.present t ht hne m hm)

theorem Sound.delete (h : w.Sound l) {n : Bytes} (hpast : n ∈ w.names → w.token ≠ none → Past l.before w.shown n) :
    (w.step l (.delete n)).Sound l := by
  refine ⟨h.nodup.erase n, fun m hm => h.named m (List.mem_of_mem_erase hm),
    (List.erase_sublist.length_le).trans h.small, h.accepted, fun hunder => ?_, h.resumes, ?_, h.ordered, ?_⟩
  · by_cases hmem : n ∈ w.names
    · exact shown_delete l.strictWeak h.nodup (l.ranked h.named) (h.front hunder) (hpast hmem hunder)
    · change w.shown <+: sorted l.before (w.names.erase n)
      rw [List.erase_of_not_mem hmem]
      exact h.front hunder
  · intro t ht hne m hm
    have hat : w.token = some t := ht
    simp only [step, hat, reduceCtorEq, if_false, List.mem_filter, decide_eq_true_eq] at hm
    exact (List.mem_erase_of_ne hm.2).mpr (h.present t hat hne m hm.1)
  · intro hover m hm
    have hat : w.token = none := hover
    simp only [step, hat, if_true] at hm
    exact h.all hat m hm

theorem Sound.step (h : w.Sound l) {s : Step} (hclear : w.Clear l s) : (w.step l s).Sound l := by
  cases s with
  | create n =>
    by_cases hmem : n ∈ w.names
    · rwa [Walk.step, if_pos hmem]
    · obtain ⟨hnamed, hroom, hpast⟩ := hclear hmem
      rw [Walk.step, if_neg hmem]
      exact h.create hmem hnamed hroom hpast
  | delete n => exact h.delete hclear
  | next size =>
    cases htoken : w.token with
    | none => simpa only [Walk.step, htoken] using h
    | some t => simpa only [Walk.step, htoken] using h.ask htoken size

theorem Sound.run {steps : List Step} (h : w.Sound l) (hclear : w.AllClear l steps) :
    (w.run l steps).Sound l := by
  induction steps generalizing w with
  | nil => exact h
  | cons s rest ih => exact ih (h.step hclear.1) hclear.2

theorem run_over (hover : w.token = none) (sizes : List Int) :
    (w.run l (sizes.map Step.next)).token = none := by
  induction sizes with
  | nil => exact hover
  | cons size rest ih =>
    have hstay : w.step l (.next size) = w := by simp only [Walk.step, hover]
    rw [List.map_cons, Walk.run, List.foldl_cons, hstay]
    exact ih

theorem Sound.ends (h : w.Sound l) (sizes : List Int)
    (henough : w.names.length < sizes.length + w.shown.length) :
    (w.run l (sizes.map Step.next)).token = none := by
  induction sizes generalizing w with
  | nil =>
    by_contra hunder
    have hle := h.length_shown_le hunder
    simp only [List.length_nil] at henough
    omega
  | cons size rest ih =>
    cases htoken : w.token with
    | none => exact run_over htoken (size :: rest)
    | some t =>
      have hstep : w.step l (.next size) = w.ask l t size := by simp only [Walk.step, htoken]
      have hsize := one_le_clampPageSize size
      rw [List.map_cons, Walk.run, List.foldl_cons, hstep]
      by_cases hmore : clampPageSize size < w.names.length - w.shown.length
      · refine ih (h.ask htoken size) ?_
        simp only [h.ask_eq htoken, List.length_take, perm_sorted.length_eq, List.length_cons] at henough ⊢
        omega
      · refine run_over ?_ rest
        simp only [h.ask_eq htoken, if_neg hmore]

theorem Sound.lossless (h : w.Sound l) : w.Lossless l := by
  have hordered : w.shown.Pairwise l.before := by
    cases htoken : w.token with
    | none => exact h.ordered htoken
    | some t => exact h.pairwise.sublist (h.front (by simp [htoken])).sublist
  have hnodup : w.shown.Nodup := by
    refine List.Pairwise.imp ?_ hordered
    rintro a b hab rfl
    exact l.strictWeak.asymm a a hab hab
  refine ⟨h.accepted, hordered, fun hover n hn => ?_, fun sizes hsizes => ?_⟩
  · exact List.count_eq_one_of_mem hnodup (h.all hover n hn)
  · exact h.ends sizes (by omega)

theorem run_lossless (l : Listing) (names : List Bytes) (hnodup : names.Nodup)
    (hnamed : ∀ n ∈ names, l.Named n) (hsmall : names.length ≤ 10 ^ 10) (steps : List Step)
    (hclear : (start names).AllClear l steps) : ((start names).run l steps).Lossless l :=
  ((sound_start hnodup hnamed hsmall).run hclear).lossless

def ringsByName : Listing := ⟨.rings, ascii "l", [], false, by decide, by decide⟩

theorem run_lossless_ring : ((start [ascii "b", ascii "a"]).run ringsByName
      [.next 1, .create (ascii "c"), .next 1, .next 1]).Lossless ringsByName := by
  refine run_lossless ringsByName _ (by decide) (fun _ _ => trivial) (by decide) _ ?_
  refine ⟨trivial, fun _ => ⟨trivial, by decide +kernel, fun _ c hc => ?_⟩, trivial, trivial, trivial⟩
  have hlast : c = ascii "a" := by
    revert hc
    have hshown : (((start [ascii "b", ascii "a"]).step ringsByName (.next 1)).shown).getLast? =
        some (ascii "a") := by decide +kernel
    rw [hshown]
    exact fun hc => (Option.some.inj hc).symm
  rw [hlast]
  decide

def version (k : Nat) : Bytes := ascii "k/cryptoKeyVersions/" ++ decimal k

def newestFirst : Listing := ⟨.versions, ascii "k", [], true, by decide, by decide⟩

theorem version_shown_twice :
    let w := (start [version 1, version 2]).run newestFirst
      [.next 1, .create (version 3), .next 1, .next 1]
    w.token = none ∧ w.throughout = [version 1, version 2] ∧
      w.shown = [version 2, version 2, version 1] ∧ ¬ w.Lossless newestFirst := by
  have hrun : (start [version 1, version 2]).run newestFirst
      [.next 1, .create (version 3), .next 1, .next 1] =
      ⟨[version 1, version 2, version 3], none, [version 2, version 2, version 1],
        [version 1, version 2], false⟩ := by
    decide +kernel
  rw [hrun]
  refine ⟨rfl, rfl, rfl, fun hlossless => ?_⟩
  exact absurd (hlossless.once rfl (version 2) (by simp)) (by decide +kernel)

end Walk

end CloudBurrow.Kms
