import CloudBurrow.Registry.Paths

namespace CloudBurrow.Registry

open Utf8 FileTree

inductive Inner : Path → Node → Prop
  | manifests : Inner [] .dir
  | revisions : Inner [ascii "revisions"] .dir
  | digests : Inner [ascii "revisions", ascii "sha256"] .dir
  | revision {hex : Bytes} (mediaType : Bytes) (h : Plain hex) :
      Inner [ascii "revisions", ascii "sha256", hex] (.file mediaType)
  | tags : Inner [ascii "tags"] .dir
  | tag {tag : Bytes} (digest : Bytes) (h : Plain tag) : Inner [ascii "tags", tag] (.file digest)

structure Laid (root : Root) (t : Tree) : Prop where
  closed : t.Closed
  shaped : ∀ p n, t.node p = some n → manifestsDir ∈ p →
    ∃ r image rest, validImage image = true ∧ p = imagePath root r image ++ manifestsDir :: rest ∧ Inner rest n

structure Held where
  manifests : Name → Option Node × Option Node
  tags : Name → Option Node

def revisionOf (root : Root) (r : Repo) (image hex : Bytes) : Path :=
  imagePath root r image ++ [manifestsDir, ascii "revisions", ascii "sha256", hex]

def tagOf (root : Root) (r : Repo) (image tag : Bytes) : Path :=
  imagePath root r image ++ [manifestsDir, ascii "tags", tag]

def blobOf (root : Root) (hex : Bytes) : Path := root.path ++ [ascii "blobs", ascii "sha256", hex]

def held (root : Root) (t : Tree) (r : Repo) (image : Bytes) : Held where
  manifests hex := (t.node (revisionOf root r image hex), t.node (blobOf root hex))
  tags tag := t.node (tagOf root r image tag)

def HoldsManifest (root : Root) (t : Tree) (r : Repo) (image : Bytes) : Prop :=
  ∃ hex, (t.node (revisionOf root r image hex)).isSome

variable {root : Root} {t t' : Tree} {r r' : Repo} {image image' : Bytes} {gone : Path → Prop}

section Laid

theorem Laid.loses (h : Laid root t) (hloses : t.Loses t' gone) (hclosed : t'.Closed) : Laid root t' :=
  ⟨hclosed, fun p n hn hp => h.shaped p n (hloses.of_some hn).1 hp⟩

theorem Inner.ordinary {rest : Path} {n : Node} (h : Inner rest n) : manifestsDir ∉ rest.dropLast := by
  cases h with
  | manifests | revisions | digests | tags => decide
  | revision mediaType _ | tag digest _ =>
    simp only [List.dropLast]
    decide

theorem Inner.tag_plain {tag : Name} {n : Node} (h : Inner [ascii "tags", tag] n) : Plain tag := by
  generalize hrest : [ascii "tags", tag] = rest at h
  cases h with
  | tag digest hplain =>
    obtain rfl : tag = _ := by simpa using hrest
    exact hplain
  | digests => exact absurd (List.cons.inj hrest).1 (by decide)
  | _ => simp at hrest

theorem Laid.image_of {a rest : Path} {n : Node} (h : Laid root t)
    (hn : t.node (a ++ manifestsDir :: rest) = some n) (hne : rest ≠ []) :
    ∃ r image, validImage image = true ∧ a = imagePath root r image ∧ Inner rest n := by
  obtain ⟨r, image, rest', himage, heq, hinner⟩ := h.shaped _ n hn (by simp)
  have hpath : manifestsDir ∉ imagePath root r image := imagePath_ordinary himage
  have hpre : imagePath root r image <+: a := by
    apply prefix_of_prefix_manifests hpath
    rw [heq]
    exact List.prefix_append _ _
  obtain ⟨more, rfl⟩ := hpre
  rw [List.append_assoc] at heq
  have htail := List.append_cancel_left heq
  cases more with
  | nil =>
    obtain rfl := (List.cons.inj htail).2
    exact ⟨r, image, himage, by simp, hinner⟩
  | cons c more =>
    have hrest : more ++ manifestsDir :: rest = rest' := (List.cons.inj htail).2
    refine absurd ?_ hinner.ordinary
    rw [← hrest, List.dropLast_append_of_ne_nil (List.cons_ne_nil _ _), List.dropLast_cons_of_ne_nil hne]
    simp

theorem listedAs_iff {p : Path} {name : Bytes} : listedAs root r p = some name ↔
    ∃ rel, p = r.dir root ++ rel ++ [manifestsDir] ∧ manifestsDir ∉ rel ∧
      name = if rel = [] then ascii "." else [47].intercalate rel := by
  constructor
  · intro h
    unfold listedAs at h
    split_ifs at h with hpre
    obtain ⟨tail, rfl⟩ := hpre
    rw [List.drop_left] at h
    cases hrev : tail.reverse with
    | nil => simp [hrev] at h
    | cons last rev =>
      simp only [hrev] at h
      split_ifs at h with hlast hnil
      · refine ⟨[], ?_, List.not_mem_nil, by simpa using h.symm⟩
        rw [List.reverse_eq_iff.mp hrev, hnil, hlast.1]
        simp
      · refine ⟨rev.reverse, ?_, by simpa using hlast.2, by simpa [hnil] using h.symm⟩
        rw [List.reverse_eq_iff.mp hrev, hlast.1]
        simp
  · rintro ⟨rel, rfl, hrel, rfl⟩
    have hpre : r.dir root <+: r.dir root ++ rel ++ [manifestsDir] := by
      rw [List.append_assoc]
      exact List.prefix_append _ _
    unfold listedAs
    rw [if_pos hpre, List.append_assoc, List.drop_left, List.reverse_append]
    simp [hrel]

theorem mem_images_iff {name : Bytes} : name ∈ images root r t ↔
    ∃ p, t.node p = some .dir ∧ listedAs root r p = some name := by
  rw [images, List.mem_insertionSort, List.mem_filterMap]
  constructor
  · rintro ⟨p, -, hp⟩
    split_ifs at hp with hdir
    exact ⟨p, hdir, hp⟩
  · rintro ⟨p, hdir, hp⟩
    have hsome : (t.node p).isSome := by rw [hdir]; rfl
    obtain ⟨n, hn⟩ := Tree.node_isSome.mp hsome
    exact ⟨p, List.mem_dedup.mpr (List.mem_map.mpr ⟨_, hn, rfl⟩), by rw [if_pos hdir, hp]⟩

theorem Laid.mem_images (h : Laid root t) {name : Bytes} : name ∈ images root r t ↔
    validImage name = true ∧ t.node (imagePath root r name ++ [manifestsDir]) = some .dir := by
  rw [mem_images_iff]
  constructor
  · rintro ⟨p, hdir, hp⟩
    obtain ⟨rel, rfl, hrel, hname⟩ := listedAs_iff.mp hp
    obtain ⟨r', image, rest, himage, heq, -⟩ := h.shaped _ _ hdir (by simp)
    have hordinary : manifestsDir ∉ r.dir root ++ rel := by
      rw [List.mem_append]
      exact fun hm => hm.elim (dir_ordinary root r) hrel
    obtain ⟨hpath, rfl⟩ := append_manifests_inj hordinary (imagePath_ordinary himage) heq
    rw [imagePath_eq himage] at hpath
    obtain rfl : r = r' := repo_of_dir (hpath ▸ List.prefix_append _ _)
    obtain rfl := List.append_cancel_left hpath
    rw [if_neg (List.splitOn_ne_nil 47 image), List.intercalate_splitOn] at hname
    subst hname
    rw [imagePath_eq himage]
    exact ⟨himage, hdir⟩
  · rintro ⟨himage, hdir⟩
    refine ⟨_, hdir, listedAs_iff.mpr ⟨name.splitOn 47, by rw [imagePath_eq himage], fun hm => ?_, ?_⟩⟩
    · exact (validImage_parts himage _ hm).2 rfl
    · rw [if_neg (List.splitOn_ne_nil 47 name), List.intercalate_splitOn]

theorem Laid.listed_of_holds (h : Laid root t) (himage : validImage image = true)
    (hholds : HoldsManifest root t r image) : image ∈ images root r t := by
  obtain ⟨hex, hsome⟩ := hholds
  refine h.mem_images.mpr ⟨himage, h.closed.above (q := [ascii "revisions", ascii "sha256", hex]) (by simp) ?_⟩
  rw [List.append_assoc]
  exact hsome

theorem Laid.listing_iff (h : Laid root t) :
    (∀ name, name ∈ images root r t ↔ validImage name = true ∧ HoldsManifest root t r name) ↔
    ∀ name ∈ images root r t, HoldsManifest root t r name := by
  constructor
  · intro hlist name hname
    exact ((hlist name).mp hname).2
  · intro hall name
    exact ⟨fun hname => ⟨(h.mem_images.mp hname).1, hall name hname⟩,
      fun hname => h.listed_of_holds hname.1 hname.2⟩

end Laid

section Pushing

theorem Laid.mkdirAll {rest : Path} (h : Laid root t) (himage : validImage image = true)
    (hdirs : ∀ q, q <+: rest → Inner q .dir) (hmk : t.mkdirAll (imagePath root r image ++ manifestsDir :: rest) = some t') :
    Laid root t' := by
  refine ⟨Tree.mkdirAll_closed h.closed hmk, fun p n hn hp => ?_⟩
  rw [Tree.mkdirAll_node hmk] at hn
  split_ifs at hn with hpre
  · obtain rfl := Option.some.inj hn
    have hin : imagePath root r image <+: p := by
      rcases List.prefix_or_prefix_of_prefix hpre (List.prefix_append (imagePath root r image) _) with habove | hbelow
      · exact absurd (habove.mem hp) (imagePath_ordinary himage)
      · exact hbelow
    obtain ⟨tail, rfl⟩ := hin
    rw [List.prefix_append_right_inj] at hpre
    cases tail with
    | nil => exact absurd (by simpa using hp) (imagePath_ordinary himage)
    | cons c q =>
      obtain ⟨rfl, hq⟩ := List.cons_prefix_cons.mp hpre
      exact ⟨r, image, q, himage, rfl, hdirs q hq⟩
  · exact h.shaped p n hn hp

theorem Laid.writeFile {rest : Path} {content : Bytes} (h : Laid root t) (himage : validImage image = true)
    (hinner : Inner rest (.file content))
    (hwrite : t.writeFile (imagePath root r image ++ manifestsDir :: rest) content = some t') : Laid root t' := by
  obtain ⟨-, -, hnode⟩ := Tree.writeFile_node hwrite
  refine ⟨Tree.writeFile_closed h.closed hwrite, fun p n hn hp => ?_⟩
  rw [hnode] at hn
  split_ifs at hn with heq
  · obtain rfl := Option.some.inj hn
    exact ⟨r, image, rest, himage, heq, hinner⟩
  · exact h.shaped p n hn hp

theorem inner_digests {q : Path} (h : q <+: [ascii "revisions", ascii "sha256"]) : Inner q .dir := by
  rw [List.prefix_cons_iff] at h
  rcases h with rfl | ⟨q, rfl, h⟩
  · exact .manifests
  · rw [List.prefix_cons_iff] at h
    rcases h with rfl | ⟨q, rfl, h⟩
    · exact .revisions
    · obtain rfl := List.prefix_nil.mp h
      exact .digests

theorem inner_tags {q : Path} (h : q <+: [ascii "tags"]) : Inner q .dir := by
  rw [List.prefix_cons_iff] at h
  rcases h with rfl | ⟨q, rfl, h⟩
  · exact .manifests
  · obtain rfl := List.prefix_nil.mp h
    exact .tags

theorem revisionOf_dropLast (hex : Bytes) : (revisionOf root r image hex).dropLast =
    imagePath root r image ++ [manifestsDir, ascii "revisions", ascii "sha256"] :=
  List.dropLast_append_of_ne_nil (List.cons_ne_nil _ _)

theorem tagOf_dropLast (tag : Bytes) : (tagOf root r image tag).dropLast =
    imagePath root r image ++ [manifestsDir, ascii "tags"] :=
  List.dropLast_append_of_ne_nil (List.cons_ne_nil _ _)

theorem Laid.putRevision {digest mediaType : Bytes} (h : Laid root t) (himage : validImage image = true)
    (hdigest : Plain (trimPrefix (ascii "sha256:") digest))
    (hput : Registry.putRevision root r image t digest mediaType = some t') : Laid root t' := by
  obtain ⟨t₁, hmk, hwrite⟩ := Option.bind_eq_some_iff.mp hput
  have hpath : revisionPath root r image digest = revisionOf root r image (trimPrefix (ascii "sha256:") digest) :=
    revisionPath_eq hdigest
  rw [hpath] at hmk hwrite
  rw [revisionOf_dropLast] at hmk
  exact (h.mkdirAll himage (fun q hq => inner_digests hq) hmk).writeFile himage (.revision mediaType hdigest) hwrite

theorem Laid.setTagLocked {tag digest : Bytes} (h : Laid root t) (himage : validImage image = true) (htag : Plain tag)
    (hset : Registry.setTagLocked root r image t tag digest = some t') : Laid root t' := by
  obtain ⟨t₁, hmk, hwrite⟩ := Option.bind_eq_some_iff.mp hset
  have hpath : tagPath root r image tag = tagOf root r image tag := tagPath_eq htag
  rw [hpath] at hmk hwrite
  rw [tagOf_dropLast] at hmk
  exact (h.mkdirAll himage (fun q hq => inner_tags hq) hmk).writeFile himage (.tag digest htag) hwrite

end Pushing

section Pruning

theorem pruneEmptyFor_loses (stop : Path) (n : Nat) (dir : Path) (t : Tree) (hclosed : t.Closed) :
    (pruneEmptyFor stop n dir t).Closed ∧
    ∃ gone, t.Loses (pruneEmptyFor stop n dir t) gone ∧ ∀ p, gone p → p <+: dir ∧ t.node p = some .dir := by
  induction n generalizing dir t with
  | zero => exact ⟨hclosed, _, Tree.Loses.refl t, fun p hp => hp.elim⟩
  | succ n ih =>
    unfold pruneEmptyFor
    by_cases hstop : dir ≠ stop ∧ text stop <+: text dir
    · rw [if_pos hstop]
      by_cases hempty : t.node dir = some .dir ∧ t.children dir = []
      · rw [if_pos hempty]
        have hremove : t.remove dir = some (t.without fun q => q = dir) := by
          simp [Tree.remove, hempty.1, hempty.2]
        obtain ⟨hloses, -, -⟩ := Tree.remove_loses hremove
        obtain ⟨hclosed', gone, hgone, hdirs⟩ := ih dir.dropLast _ (Tree.remove_closed hclosed hremove)
        rw [hremove]
        refine ⟨hclosed', _, hloses.trans hgone, ?_⟩
        rintro p (rfl | hp)
        · exact ⟨List.prefix_rfl, hempty.1⟩
        · exact ⟨(hdirs p hp).1.trans (List.dropLast_prefix dir), (hloses.of_some (hdirs p hp).2).1⟩
      · rw [if_neg hempty]
        exact ⟨hclosed, _, Tree.Loses.refl t, fun p hp => hp.elim⟩
    · rw [if_neg hstop]
      exact ⟨hclosed, _, Tree.Loses.refl t, fun p hp => hp.elim⟩

theorem removeAll_pruned {path dir : Path} (stop : Path) (hclosed : t.Closed) (hdir : dir <+: path) :
    (pruneEmpty (t.removeAll path) dir stop).Closed ∧
    ∃ gone, t.Loses (pruneEmpty (t.removeAll path) dir stop) gone ∧
      (∀ p, path <+: p → gone p) ∧ ∀ p, gone p → path <+: p ∨ p <+: path := by
  have hremoved := Tree.removeAll_loses t path
  obtain ⟨hclosed', gone, hgone, habove⟩ :=
    pruneEmptyFor_loses stop dir.length dir _ (Tree.removeAll_closed hclosed path)
  refine ⟨hclosed', _, hremoved.trans hgone, fun p hp => .inl hp, ?_⟩
  rintro p (hp | hp)
  · exact .inl hp
  · exact .inr ((habove p hp).1.trans hdir)

end Pruning

end CloudBurrow.Registry
