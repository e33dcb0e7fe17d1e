import CloudBurrow.Registry.Content

namespace CloudBurrow.Registry

open Utf8 FileTree

inductive Deletion where
  | deleteTag (r : Repo) (image tag : Bytes)
  | deleteManifest (r : Repo) (image digest : Bytes)
  | deleteImage (r : Repo) (image : Bytes)
  | deleteRepository (r : Repo)

namespace Deletion

def run (root : Root) (t : Tree) : Deletion → Except Fault Tree
  | .deleteTag r image tag => Registry.deleteTag root r image t tag
  | .deleteManifest r image digest => Registry.deleteManifest root r image t digest
  | .deleteImage r image => Registry.deleteImage root r image t
  | .deleteRepository r => Registry.deleteRepository root r t

def after (root : Root) (t : Tree) (c : Deletion) : Tree :=
  match c.run root t with
  | .ok t' => t'
  | .error _ => t

def repo : Deletion → Repo
  | .deleteTag r _ _ | .deleteManifest r _ _ | .deleteImage r _ | .deleteRepository r => r

def Own : Deletion → Repo → Bytes → Prop
  | .deleteTag r image _, r', image' | .deleteManifest r image _, r', image' | .deleteImage r image, r', image' =>
    r' = r ∧ image' = image
  | .deleteRepository r, r', _ => r' = r

end Deletion

structure Touches (root : Root) (t t' : Tree) (r : Repo) (own : Repo → Bytes → Prop) : Prop where
  others : ∀ r' image, validImage image = true → ¬ own r' image → held root t' r' image = held root t r' image
  listing : ∀ image, image ∈ images root r t' ↔ validImage image = true ∧ HoldsManifest root t' r image

def TouchesOneImage (root : Root) (t : Tree) (c : Deletion) : Prop := Touches root t (c.after root t) c.repo c.Own

def Alone (root : Root) (t : Tree) (r : Repo) (image : Bytes) : Prop :=
  ∀ image', validImage image' = true → image' ≠ image → imagePath root r image <+: imagePath root r image' →
    ∀ name, t.node (revisionOf root r image' name) = none ∧ t.node (tagOf root r image' name) = none

def Stocked (root : Root) (t : Tree) (r : Repo) (these : Bytes → Prop) : Prop :=
  ∀ image ∈ images root r t, these image → HoldsManifest root t r image

def Outside (root : Root) (r : Repo) (image image' : Bytes) : Prop :=
  ¬ imagePath root r image <+: imagePath root r image'

def Spared (root : Root) (t : Tree) : Deletion → Prop
  | .deleteTag r image tag =>
    (validTag tag = true → (t.node (tagPath root r image tag)).isSome → validImage image = true) ∧
    Stocked root t r fun _ => True
  | .deleteManifest r image digest =>
    if validDigest digest = true ∧ (t.node (revisionPath root r image digest)).isSome then
      validImage image = true ∧
      if ∃ hex ∈ t.children (revisionPath root r image digest).dropLast, hex ≠ trimPrefix (ascii "sha256:") digest then
        Stocked root t r fun _ => True
      else Alone root t r image ∧ Stocked root t r (Outside root r image)
    else Stocked root t r fun _ => True
  | .deleteImage r image =>
    if validImage image = true ∧ (t.node (imageDir root r image)).isSome then
      Alone root t r image ∧ Stocked root t r (Outside root r image)
    else Stocked root t r fun _ => True
  | .deleteRepository _ => True

section Effects

variable {root : Root} {t t' : Tree} {r r' : Repo} {image image' : Bytes} {gone : Path → Prop}

theorem blobOf_apart (r : Repo) (q : Path) (hex : Bytes) :
    ¬ r.dir root ++ q <+: blobOf root hex ∧ ¬ blobOf root hex <+: r.dir root ++ q := by
  have hne : ascii "repos" ≠ ascii "blobs" := by decide
  rw [dir_eq, blobOf, List.append_assoc]
  constructor
  · intro h
    rw [List.prefix_append_right_inj, List.cons_append, List.cons_prefix_cons] at h
    exact hne h.1
  · intro h
    rw [List.prefix_append_right_inj, List.cons_append, List.cons_prefix_cons] at h
    exact hne h.1.symm

theorem blob_kept (hloses : t.Loses t' gone)
    (hgone : ∀ p, gone p → ∃ q, r.dir root ++ q <+: p ∨ p <+: r.dir root ++ q) (hex : Bytes) :
    t'.node (blobOf root hex) = t.node (blobOf root hex) := by
  refine hloses.kept _ fun hg => ?_
  obtain ⟨q, hin | habove⟩ := hgone _ hg
  · exact (blobOf_apart r q hex).1 hin
  · exact (blobOf_apart r q hex).2 habove

theorem held_congr (hblob : ∀ hex, t'.node (blobOf root hex) = t.node (blobOf root hex))
    (hrev : ∀ hex, t'.node (revisionOf root r image hex) = t.node (revisionOf root r image hex))
    (htag : ∀ tag, t'.node (tagOf root r image tag) = t.node (tagOf root r image tag)) :
    held root t' r image = held root t r image := by
  simp only [held, hblob, hrev, htag]

theorem touches_unchanged (h : Laid root t) {own : Repo → Bytes → Prop} :
    Touches root t t r own ↔ Stocked root t r fun _ => True := by
  constructor
  · intro ht image himage _
    exact h.listing_iff.mp ht.listing image himage
  · intro hs
    exact ⟨fun _ _ _ _ => rfl, h.listing_iff.mpr fun image himage => hs image himage trivial⟩

theorem touches_subtree (h : Laid root t) (himage : validImage image = true) (hloses : t.Loses t' gone)
    (hclosed : t'.Closed) (hbelow : ∀ p, imagePath root r image <+: p → gone p)
    (honly : ∀ p, gone p → imagePath root r image <+: p ∨ p <+: imagePath root r image) :
    Touches root t t' r (fun r' image' => r' = r ∧ image' = image) ↔
      Alone root t r image ∧ Stocked root t r (Outside root r image) := by
  have hpath : manifestsDir ∉ imagePath root r image := imagePath_ordinary himage
  have hkept : ∀ r' image' rest, ¬ imagePath root r image <+: imagePath root r' image' →
      t'.node (imagePath root r' image' ++ manifestsDir :: rest) =
        t.node (imagePath root r' image' ++ manifestsDir :: rest) := by
    intro r' image' rest hout
    refine hloses.kept _ fun hg => ?_
    rcases honly _ hg with hin | habove
    · exact hout (prefix_of_prefix_manifests hpath hin)
    · exact hpath (List.IsPrefix.mem (by simp) habove)
  have hlost : ∀ r' image' rest, imagePath root r image <+: imagePath root r' image' →
      t'.node (imagePath root r' image' ++ manifestsDir :: rest) = none := fun r' image' rest hin =>
    hloses.lost _ (hbelow _ (hin.trans (List.prefix_append _ _)))
  have hblob := blob_kept hloses fun p hp => ⟨_, by simpa only [imagePath_eq himage] using honly p hp⟩
  constructor
  · intro ht
    refine ⟨fun image' himage' hne hin name => ?_, fun image' hlisted hout => ?_⟩
    · have heq := ht.others r image' himage' fun hown => hne hown.2
      constructor
      · exact (congrArg (fun c : Held => (c.manifests name).1) heq).symm.trans (hlost r image' _ hin)
      · exact (congrArg (fun c : Held => c.tags name) heq).symm.trans (hlost r image' _ hin)
    · have hdir := (h.mem_images.mp hlisted)
      have hlisted' : image' ∈ images root r t' :=
        (h.loses hloses hclosed).mem_images.mpr ⟨hdir.1, (hkept r image' [] hout).trans hdir.2⟩
      obtain ⟨hex, hhex⟩ := ((ht.listing image').mp hlisted').2
      exact ⟨hex, (congrArg Option.isSome (hkept r image' _ hout)).symm.trans hhex⟩
  · rintro ⟨halone, hstocked⟩
    refine ⟨fun r' image' himage' hother => ?_, (h.loses hloses hclosed).listing_iff.mpr fun image' hlisted => ?_⟩
    · by_cases hin : imagePath root r image <+: imagePath root r' image'
      · obtain rfl : r = r' := imagePath_prefix himage himage' hin
        have hbare := halone image' himage' (fun heq => hother ⟨rfl, heq⟩) hin
        exact held_congr hblob (fun hex => (hlost r image' _ hin).trans (hbare hex).1.symm)
          fun tag => (hlost r image' _ hin).trans (hbare tag).2.symm
      · exact held_congr hblob (fun _ => hkept r' image' _ hin) fun _ => hkept r' image' _ hin
    · obtain ⟨himage', hdir'⟩ := (h.loses hloses hclosed).mem_images.mp hlisted
      have hout : Outside root r image image' := fun hin => by
        rw [hlost r image' [] hin] at hdir'
        cases hdir'
      have hlisted' : image' ∈ images root r t := h.mem_images.mpr ⟨himage', (hloses.of_some hdir').1⟩
      obtain ⟨hex, hhex⟩ := hstocked image' hlisted' hout
      exact ⟨hex, (congrArg Option.isSome (hkept r image' _ hout)).trans hhex⟩

theorem touches_own (h : Laid root t) (himage : validImage image = true) (hloses : t.Loses t' gone)
    (hclosed : t'.Closed) (hinside : ∀ p, gone p → ∃ rest, rest ≠ [] ∧ p = imagePath root r image ++ manifestsDir :: rest)
    (hstill : HoldsManifest root t r image → HoldsManifest root t' r image) :
    Touches root t t' r (fun r' image' => r' = r ∧ image' = image) ↔ Stocked root t r fun _ => True := by
  have hlaid := h.loses hloses hclosed
  have hkept : ∀ r' image' rest, validImage image' = true → ¬ (r' = r ∧ image' = image) ∨ rest = [] →
      t'.node (imagePath root r' image' ++ manifestsDir :: rest) =
        t.node (imagePath root r' image' ++ manifestsDir :: rest) := by
    intro r' image' rest himage' hother
    refine hloses.kept _ fun hg => ?_
    obtain ⟨rest', hrest', heq⟩ := hinside _ hg
    obtain ⟨hpath, rfl⟩ := append_manifests_inj (imagePath_ordinary himage') (imagePath_ordinary himage) heq
    exact hother.elim (fun hne => hne (imagePath_inj himage' himage hpath)) hrest'
  have hblob : ∀ hex, t'.node (blobOf root hex) = t.node (blobOf root hex) := by
    refine blob_kept (r := r) hloses fun p hp => ?_
    obtain ⟨rest, -, rfl⟩ := hinside p hp
    rw [imagePath_eq himage]
    exact ⟨_, .inl (List.prefix_append _ _)⟩
  constructor
  · intro ht image' hlisted _
    obtain ⟨himage', hdir⟩ := h.mem_images.mp hlisted
    have hlisted' : image' ∈ images root r t' :=
      hlaid.mem_images.mpr ⟨himage', (hkept r image' [] himage' (.inr rfl)).trans hdir⟩
    obtain ⟨hex, hhex⟩ := ((ht.listing image').mp hlisted').2
    obtain ⟨n, hn⟩ := Option.isSome_iff_exists.mp hhex
    exact ⟨hex, by rw [(hloses.of_some hn).1]; rfl⟩
  · intro hstocked
    refine ⟨fun r' image' himage' hother => ?_, hlaid.listing_iff.mpr fun image' hlisted => ?_⟩
    · exact held_congr hblob (fun _ => hkept r' image' _ himage' (.inl hother))
        fun _ => hkept r' image' _ himage' (.inl hother)
    · obtain ⟨himage', hdir'⟩ := hlaid.mem_images.mp hlisted
      have hholds := hstocked image' (h.mem_images.mpr ⟨himage', (hloses.of_some hdir').1⟩) trivial
      by_cases hsame : image' = image
      · rw [hsame] at hholds ⊢
        exact hstill hholds
      · obtain ⟨hex, hhex⟩ := hholds
        have hrev := hkept r image' [ascii "revisions", ascii "sha256", hex] himage' (.inl fun hown => hsame hown.2)
        exact ⟨hex, (congrArg Option.isSome hrev).trans hhex⟩

theorem not_touches (h : Laid root t) (himage : ¬ validImage image = true) {rest : Path} (f : Held → Option Node)
    (hf : ∀ t r image, f (held root t r image) = t.node (imagePath root r image ++ manifestsDir :: rest)) (hrest : rest ≠ [])
    (hbefore : (t.node (imagePath root r image ++ manifestsDir :: rest)).isSome)
    (hafter : t'.node (imagePath root r image ++ manifestsDir :: rest) = none) :
    ¬ Touches root t t' r fun r' image' => r' = r ∧ image' = image := by
  intro ht
  obtain ⟨n, hn⟩ := Option.isSome_iff_exists.mp hbefore
  obtain ⟨r', image', himage', heq, -⟩ := h.image_of hn hrest
  have hnode := congrArg f (ht.others r' image' himage' fun hown => himage (hown.2 ▸ himage'))
  rw [hf, hf, ← heq, hafter, hn] at hnode
  cases hnode

theorem dropTags_loses (digest : Bytes) {tags : List (Name × Bytes)} (htags : ∀ e ∈ tags, Plain e.1) (hclosed : t.Closed) :
    (dropTags root r image t digest tags).Closed ∧
    ∃ gone, t.Loses (dropTags root r image t digest tags) gone ∧ ∀ p, gone p → ∃ tag, p = tagOf root r image tag := by
  induction tags generalizing t with
  | nil => exact ⟨hclosed, _, Tree.Loses.refl t, fun p hp => hp.elim⟩
  | cons e tags ih =>
    have hrest := fun e' he' => htags e' (List.mem_cons_of_mem e he')
    change (dropTags root r image (if e.2 = digest then (t.remove (tagPath root r image e.1)).getD t else t) digest
      tags).Closed ∧ ∃ gone, t.Loses (dropTags root r image
        (if e.2 = digest then (t.remove (tagPath root r image e.1)).getD t else t) digest tags) gone ∧ _
    by_cases hd : e.2 = digest
    · rw [if_pos hd]
      cases hremove : t.remove (tagPath root r image e.1) with
      | none => exact ih hrest hclosed
      | some t₁ =>
        obtain ⟨hclosed', gone, hgone, hin⟩ := ih hrest (Tree.remove_closed hclosed hremove)
        refine ⟨hclosed', _, (Tree.remove_loses hremove).1.trans hgone, ?_⟩
        rintro p (rfl | hp)
        · exact ⟨e.1, tagPath_eq (htags e List.mem_cons_self)⟩
        · exact hin p hp
    · rw [if_neg hd]
      exact ih hrest hclosed

theorem tagsOf_plain (h : Laid root t) : ∀ e ∈ tagsOf root r image t, Plain e.1 := by
  intro e he
  unfold tagsOf tagsLocked at he
  by_cases himage : validImage image = true
  · by_cases hnone : t.node (imageDir root r image) = none
    · simp [himage, hnone] at he
    · simp only [himage, hnone, Bool.not_true, Bool.false_eq_true, if_false] at he
      obtain ⟨name, hname, hfile⟩ := List.mem_filterMap.mp he
      have hdir : join (imageDir root r image) [ascii "tags"] = imagePath root r image ++ [manifestsDir, ascii "tags"] := by
        rw [join_plain (imageDir_plain root r image) (by simp [plain_tags]), imageDir_eq, List.append_assoc]
        rfl
      rw [hdir, Tree.mem_children, List.append_assoc] at hname
      obtain ⟨n, hn⟩ := Option.isSome_iff_exists.mp hname
      obtain ⟨-, -, -, -, hinner⟩ := @Laid.image_of _ _ _ [ascii "tags", name] _ h hn (by simp)
      split at hfile
      · obtain rfl := Option.some.inj hfile
        exact hinner.tag_plain
      · cases hfile
  · simp [himage] at he

theorem Laid.remove_none {p : Path} {a rest : Path} (h : Laid root t) (hp : p = a ++ manifestsDir :: rest)
    (hne : rest ≠ []) (hfile : ∀ n, Inner rest n → ∃ content, n = .file content) :
    t.remove p = none ↔ t.node p = none := by
  constructor
  · intro hremove
    cases hn : t.node p with
    | none => rfl
    | some n =>
      obtain ⟨-, -, -, -, hinner⟩ := h.image_of (hp ▸ hn) hne
      obtain ⟨content, rfl⟩ := hfile n hinner
      obtain ⟨t₁, ht₁, -⟩ := Tree.remove_file hn
      rw [hremove] at ht₁
      cases ht₁
  · intro hnone
    simp [Tree.remove, hnone]

theorem Inner.tag_file {tag : Name} {n : Node} (h : Inner [ascii "tags", tag] n) : ∃ content, n = .file content := by
  generalize hrest : [ascii "tags", tag] = rest at h
  cases h with
  | tag digest _ => exact ⟨digest, rfl⟩
  | digests => exact absurd (List.cons.inj hrest).1 (by decide)
  | _ => simp at hrest

theorem Inner.revision_file {hex : Name} {n : Node} (h : Inner [ascii "revisions", ascii "sha256", hex] n) :
    ∃ content, n = .file content := by
  generalize hrest : [ascii "revisions", ascii "sha256", hex] = rest at h
  cases h with
  | revision mediaType _ => exact ⟨mediaType, rfl⟩
  | _ => simp at hrest

theorem revisionOf_ne_tagOf (hex tag : Bytes) : revisionOf root r image hex ≠ tagOf root r image tag := by
  intro heq
  have hlists := List.append_cancel_left heq
  simp at hlists

theorem revisionOf_inj {hex hex' : Bytes} (h : revisionOf root r image hex = revisionOf root r image hex') : hex = hex' := by
  simpa using List.append_cancel_left h

theorem revisionOf_sibling (hex hex' : Bytes) :
    (revisionOf root r image hex).dropLast ++ [hex'] = revisionOf root r image hex' := by
  rw [revisionOf, List.dropLast_append_of_ne_nil (List.cons_ne_nil _ _), List.append_assoc]
  rfl

theorem children_without {hex : Bytes} (hloses : t.Loses t' fun p => p = revisionOf root r image hex ∨ gone p)
    (hgone : ∀ p, gone p → ∃ tag, p = tagOf root r image tag) :
    t'.children (revisionOf root r image hex).dropLast = [] ↔
      ¬ ∃ hex' ∈ t.children (revisionOf root r image hex).dropLast, hex' ≠ hex := by
  have hchild : ∀ hex', hex' ∈ t'.children (revisionOf root r image hex).dropLast ↔
      hex' ∈ t.children (revisionOf root r image hex).dropLast ∧ hex' ≠ hex := by
    intro hex'
    rw [Tree.mem_children, Tree.mem_children, revisionOf_sibling]
    by_cases hsame : hex' = hex
    · subst hsame
      simp [hloses.lost _ (.inl rfl)]
    · have hkept := hloses.kept (revisionOf root r image hex') fun hg => by
        rcases hg with heq | hg
        · exact hsame (revisionOf_inj heq)
        · obtain ⟨tag, heq⟩ := hgone _ hg
          exact revisionOf_ne_tagOf hex' tag heq
      rw [hkept, and_iff_left hsame]
  rw [List.eq_nil_iff_forall_not_mem]
  simp only [hchild, not_exists]

end Effects

section Calls

variable {root : Root} {t t' : Tree} {r : Repo} {image : Bytes}

theorem Deletion.after_ok {c : Deletion} (h : c.run root t = .ok t') : c.after root t = t' := by
  simp only [Deletion.after, h]

theorem Deletion.after_error {c : Deletion} {fault : Fault} (h : c.run root t = .error fault) : c.after root t = t := by
  simp only [Deletion.after, h]

theorem deleteTag_touches (h : Laid root t) (tag : Bytes) :
    TouchesOneImage root t (.deleteTag r image tag) ↔ Spared root t (.deleteTag r image tag) := by
  change Touches root t ((Deletion.deleteTag r image tag).after root t) r (fun r' image' => r' = r ∧ image' = image) ↔ _
  simp only [Spared]
  by_cases htag : validTag tag = true
  · have hpath : tagPath root r image tag = tagOf root r image tag := tagPath_eq (validTag_plain htag)
    cases hremove : t.remove (tagPath root r image tag) with
    | none =>
      have hnone := (h.remove_none hpath (by simp) fun n hn => hn.tag_file).mp hremove
      have hrun : (Deletion.deleteTag r image tag).run root t = .error .manifestUnknown := by
        simp [Deletion.run, deleteTag, htag, hremove]
      rw [Deletion.after_error hrun, touches_unchanged h, hnone]
      simp
    | some t₁ =>
      obtain ⟨hloses, hsome, -⟩ := Tree.remove_loses hremove
      have hrun : (Deletion.deleteTag r image tag).run root t = .ok t₁ := by
        simp [Deletion.run, deleteTag, htag, hremove]
      rw [Deletion.after_ok hrun]
      by_cases himage : validImage image = true
      · have hown := touches_own h himage hloses (Tree.remove_closed h.closed hremove)
          (fun p hp => ⟨_, List.cons_ne_nil _ _, hp.trans hpath⟩) (r := r) ?_
        · simpa [himage] using hown
        · rintro ⟨hex, hhex⟩
          refine ⟨hex, ?_⟩
          rw [hloses.kept _ (hpath ▸ revisionOf_ne_tagOf hex tag)]
          exact hhex
      · refine iff_of_false ?_ fun hspared => himage (hspared.1 htag hsome)
        rw [hpath] at hsome hloses
        exact not_touches h himage (fun c => c.tags tag) (fun _ _ _ => rfl) (by simp) hsome (hloses.lost _ rfl)
  · have hrun : (Deletion.deleteTag r image tag).run root t = .error .manifestUnknown := by
      simp [Deletion.run, deleteTag, htag]
    rw [Deletion.after_error hrun, touches_unchanged h]
    simp [htag]

theorem removed_touches (h : Laid root t) (himage : validImage image = true) {t₀ : Tree} {gone : Path → Prop}
    (hloses : t.Loses t₀ gone) (hclosed : t₀.Closed) (hinside : ∀ p, gone p → imagePath root r image <+: p) :
    Touches root t (pruneEmpty (t₀.removeAll (imagePath root r image)) (imagePath root r image).dropLast (r.dir root)) r
      (fun r' image' => r' = r ∧ image' = image) ↔ Alone root t r image ∧ Stocked root t r (Outside root r image) := by
  obtain ⟨hclosed', gone', hgone', hbelow, honly⟩ :=
    removeAll_pruned (r.dir root) hclosed (List.dropLast_prefix (imagePath root r image))
  refine touches_subtree h himage (hloses.trans hgone') hclosed' (fun p hp => .inr (hbelow p hp)) ?_
  rintro p (hp | hp)
  · exact .inl (hinside p hp)
  · exact honly p hp

theorem deleteImage_touches (h : Laid root t) :
    TouchesOneImage root t (.deleteImage r image) ↔ Spared root t (.deleteImage r image) := by
  change Touches root t ((Deletion.deleteImage r image).after root t) r (fun r' image' => r' = r ∧ image' = image) ↔ _
  simp only [Spared]
  by_cases hthere : validImage image = true ∧ (t.node (imageDir root r image)).isSome
  · have hnode : t.node (imageDir root r image) ≠ none := Option.isSome_iff_ne_none.mp hthere.2
    have hrun : (Deletion.deleteImage r image).run root t = .ok (pruneEmpty (t.removeAll (imagePath root r image))
        (imagePath root r image).dropLast (r.dir root)) := by
      simp [Deletion.run, deleteImage, hthere.1, hnode]
    rw [Deletion.after_ok hrun, if_pos hthere]
    exact removed_touches h hthere.1 (Tree.Loses.refl t) h.closed fun p hp => hp.elim
  · have hrun : (Deletion.deleteImage r image).run root t = .error .nameInvalid := by
      by_cases himage : validImage image = true
      · have hnone : t.node (imageDir root r image) = none := by
          rw [← Option.not_isSome_iff_eq_none]
          exact fun hsome => hthere ⟨himage, hsome⟩
        simp [Deletion.run, deleteImage, himage, hnone]
      · simp [Deletion.run, deleteImage, himage]
    rw [Deletion.after_error hrun, if_neg hthere]
    exact touches_unchanged h

theorem deleteManifest_touches (h : Laid root t) (digest : Bytes) :
    TouchesOneImage root t (.deleteManifest r image digest) ↔ Spared root t (.deleteManifest r image digest) := by
  change Touches root t ((Deletion.deleteManifest r image digest).after root t) r (fun r' image' => r' = r ∧ image' = image) ↔ _
  simp only [Spared]
  by_cases hthere : validDigest digest = true ∧ (t.node (revisionPath root r image digest)).isSome
  · obtain ⟨hdigest, hsome⟩ := hthere
    rw [if_pos ⟨hdigest, hsome⟩]
    obtain ⟨hex, -, htrim, hhex⟩ := validDigest_hex hdigest
    rw [htrim]
    have hpath : revisionPath root r image digest = revisionOf root r image hex := by
      rw [revisionPath_eq (htrim ▸ hhex), htrim]
      rfl
    rw [hpath] at hsome ⊢
    obtain ⟨n, hn⟩ := Option.isSome_iff_exists.mp hsome
    obtain ⟨-, -, -, -, hinner⟩ := h.image_of hn (by simp)
    obtain ⟨mediaType, rfl⟩ := hinner.revision_file
    obtain ⟨t₁, hremove, hloses₁⟩ := Tree.remove_file hn
    have hlaid₁ := h.loses hloses₁ (Tree.remove_closed h.closed hremove)
    obtain ⟨hclosed₂, gone, hloses₂, hgone⟩ :=
      @dropTags_loses root _ r image digest _ (tagsOf_plain hlaid₁) hlaid₁.closed
    generalize hdropped : dropTags root r image t₁ digest (tagsOf root r image t₁) = t₂ at hclosed₂ hloses₂
    have hloses := hloses₁.trans hloses₂
    have hrun : (Deletion.deleteManifest r image digest).run root t =
        .ok (if t₂.children (revisionOf root r image hex).dropLast = [] then
          pruneEmpty (t₂.removeAll (imagePath root r image)) (imagePath root r image).dropLast (r.dir root) else t₂) := by
      simp [Deletion.run, deleteManifest, hdigest, hpath, hremove, hdropped]
    rw [Deletion.after_ok hrun]
    by_cases himage : validImage image = true
    · rw [and_iff_right himage]
      have hothers : t₂.children (revisionOf root r image hex).dropLast = [] ↔
          ¬ ∃ hex' ∈ t.children (revisionOf root r image hex).dropLast, hex' ≠ hex :=
        children_without hloses hgone
      by_cases hlast : t₂.children (revisionOf root r image hex).dropLast = []
      · rw [if_pos hlast, if_neg (hothers.mp hlast)]
        refine removed_touches h himage hloses hclosed₂ ?_
        rintro p (rfl | hp)
        · exact List.prefix_append _ _
        · obtain ⟨tag, rfl⟩ := hgone p hp
          exact List.prefix_append _ _
      · have hsomeOther := not_not.mp (fun hnone => hlast (hothers.mpr hnone))
        rw [if_neg hlast, if_pos hsomeOther]
        refine touches_own h himage hloses hclosed₂ ?_ fun _ => ?_
        · rintro p (rfl | hp)
          · exact ⟨_, List.cons_ne_nil _ _, rfl⟩
          · obtain ⟨tag, rfl⟩ := hgone p hp
            exact ⟨_, List.cons_ne_nil _ _, rfl⟩
        · obtain ⟨hex', hmem⟩ := List.exists_mem_of_ne_nil _ hlast
          refine ⟨hex', ?_⟩
          rw [← revisionOf_sibling]
          exact Tree.mem_children.mp hmem
    · refine iff_of_false (not_touches h himage (fun c => (c.manifests hex).1) (fun _ _ _ => rfl) (by simp) ?_ ?_)
        fun hspared => himage hspared.1
      · exact hn ▸ rfl
      · have hnone : t₂.node (revisionOf root r image hex) = none := hloses.lost _ (.inl rfl)
        by_cases hlast : t₂.children (revisionOf root r image hex).dropLast = []
        · rw [if_pos hlast]
          obtain ⟨-, gone', hgone', -⟩ := removeAll_pruned (r.dir root) hclosed₂
            (List.dropLast_prefix (imagePath root r image))
          by_contra hsome'
          obtain ⟨n, hn'⟩ := Option.ne_none_iff_exists'.mp hsome'
          cases hnone.symm.trans (hgone'.of_some hn').1
        · rw [if_neg hlast]
          exact hnone
  · have hrun : (Deletion.deleteManifest r image digest).run root t = .error .manifestUnknown := by
      by_cases hdigest : validDigest digest = true
      · have hnone : t.node (revisionPath root r image digest) = none := by
          rw [← Option.not_isSome_iff_eq_none]
          exact fun hsome => hthere ⟨hdigest, hsome⟩
        simp [Deletion.run, deleteManifest, hdigest, Tree.remove, hnone]
      · simp [Deletion.run, deleteManifest, hdigest]
    rw [Deletion.after_error hrun, if_neg hthere]
    exact touches_unchanged h

theorem deleteRepository_touches (h : Laid root t) : TouchesOneImage root t (.deleteRepository r) := by
  change Touches root t (pruneEmpty (t.removeAll (r.dir root)) (r.dir root).dropLast _) r fun r' _ => r' = r
  obtain ⟨hclosed, gone, hloses, hbelow, honly⟩ := removeAll_pruned (join root.path [ascii "repos"]) h.closed
    (List.dropLast_prefix (r.dir root))
  have hkept : ∀ r' image rest, validImage image = true → ¬ r' = r →
      (pruneEmpty (t.removeAll (r.dir root)) (r.dir root).dropLast (join root.path [ascii "repos"])).node
          (imagePath root r' image ++ manifestsDir :: rest) = t.node (imagePath root r' image ++ manifestsDir :: rest) := by
    intro r' image rest himage hother
    refine hloses.kept _ fun hg => ?_
    rcases honly _ hg with hin | habove
    · rw [imagePath_eq himage, List.append_assoc] at hin
      exact hother (repo_of_dir hin).symm
    · exact dir_ordinary root r (habove.mem (by simp))
  have hblob := blob_kept hloses fun p hp => ⟨[], by simpa only [List.append_nil] using honly p hp⟩
  refine ⟨fun r' image himage hother => ?_, (h.loses hloses hclosed).listing_iff.mpr fun image hlisted => ?_⟩
  · exact held_congr hblob (fun _ => hkept r' image _ himage hother) fun _ => hkept r' image _ himage hother
  · obtain ⟨himage, hdir⟩ := (h.loses hloses hclosed).mem_images.mp hlisted
    rw [hloses.lost _ (hbelow _ ?_)] at hdir
    · cases hdir
    · rw [imagePath_eq himage, List.append_assoc]
      exact List.prefix_append _ _

end Calls

theorem touches_one_image_iff {root : Root} {t : Tree} (h : Laid root t) (c : Deletion) :
    TouchesOneImage root t c ↔ Spared root t c := by
  cases c with
  | deleteTag r image tag => exact deleteTag_touches h tag
  | deleteManifest r image digest => exact deleteManifest_touches h digest
  | deleteImage r image => exact deleteImage_touches h
  | deleteRepository r => exact iff_of_true (deleteRepository_touches h) trivial

section Sample

def sampleRoot : Root := ⟨[], by simp, by simp⟩

def sampleRepo : Repo :=
  ⟨ascii "l", ascii "p", ascii "r", by
    simp only [List.mem_cons, List.not_mem_nil, or_false]
    rintro n (rfl | rfl | rfl)
    all_goals exact ⟨by decide, by decide, by decide, by decide⟩, by decide⟩

def sampleDigest : Bytes := ascii "sha256:" ++ List.replicate 64 48

def nestedImages : Option Tree :=
  ((putRevision sampleRoot sampleRepo (ascii "a") [] sampleDigest (ascii "m")).bind fun t =>
    setTagLocked sampleRoot sampleRepo (ascii "a") t (ascii "v") sampleDigest).bind fun t =>
      putRevision sampleRoot sampleRepo (ascii "a/b") t sampleDigest (ascii "m")

theorem laid_nil (root : Root) : Laid root [] := by
  constructor
  · rintro p x hx
    cases hx
  · rintro p n hn
    cases hn

theorem nestedImages_laid {t : Tree} (h : nestedImages = some t) : Laid sampleRoot t := by
  obtain ⟨t₂, h₂, h₃⟩ := Option.bind_eq_some_iff.mp h
  obtain ⟨t₁, h₁, h₂⟩ := Option.bind_eq_some_iff.mp h₂
  have hdigest : Plain (trimPrefix (ascii "sha256:") sampleDigest) := ⟨by decide, by decide, by decide, by decide⟩
  have hlaid₁ := (laid_nil sampleRoot).putRevision (by decide +kernel) hdigest h₁
  have hlaid₂ := hlaid₁.setTagLocked (by decide +kernel) ⟨by decide, by decide, by decide, by decide⟩ h₂
  exact hlaid₂.putRevision (by decide +kernel) hdigest h₃

theorem nestedImages_tag_deleted : ∃ t, nestedImages = some t ∧ Laid sampleRoot t ∧
    TouchesOneImage sampleRoot t (.deleteTag sampleRepo (ascii "a") (ascii "v")) := by
  obtain ⟨t, ht⟩ : ∃ t, nestedImages = some t := Option.isSome_iff_exists.mp (by decide +kernel)
  refine ⟨t, ht, nestedImages_laid ht, (touches_one_image_iff (nestedImages_laid ht) _).mpr ⟨fun _ _ => by decide +kernel, ?_⟩⟩
  have himages : images sampleRoot sampleRepo t = [ascii "a", ascii "a/b"] := by
    have hall : nestedImages.map (images sampleRoot sampleRepo) = some [ascii "a", ascii "a/b"] := by decide +kernel
    rw [ht] at hall
    exact Option.some.inj hall
  have hholds : ∀ image ∈ [ascii "a", ascii "a/b"],
      (t.node (revisionOf sampleRoot sampleRepo image (List.replicate 64 48))).isSome := by
    have hall : ∀ u ∈ nestedImages, ∀ image ∈ [ascii "a", ascii "a/b"],
        (u.node (revisionOf sampleRoot sampleRepo image (List.replicate 64 48))).isSome := by decide +kernel
    exact hall t ht
  intro image himage _
  exact ⟨_, hholds image (himages ▸ himage)⟩

theorem nested_image_lost : ∃ t, nestedImages = some t ∧ Laid sampleRoot t ∧
    ¬ TouchesOneImage sampleRoot t (.deleteImage sampleRepo (ascii "a")) := by
  obtain ⟨t, ht⟩ : ∃ t, nestedImages = some t := Option.isSome_iff_exists.mp (by decide +kernel)
  refine ⟨t, ht, nestedImages_laid ht, fun htouches => ?_⟩
  have hheld := htouches.others sampleRepo (ascii "a/b") (by decide +kernel) fun hown =>
    absurd hown.2 (by decide)
  have hmanifest := congrArg (fun c : Held => (c.manifests (List.replicate 64 48)).1) hheld
  have hdiffer : ∀ u ∈ nestedImages, (((Deletion.deleteImage sampleRepo (ascii "a")).after sampleRoot u).node
        (revisionOf sampleRoot sampleRepo (ascii "a/b") (List.replicate 64 48))) ≠
      u.node (revisionOf sampleRoot sampleRepo (ascii "a/b") (List.replicate 64 48)) := by decide +kernel
  exact hdiffer t ht hmanifest

end Sample

end CloudBurrow.Registry
