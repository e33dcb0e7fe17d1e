import CloudBurrow.Registry.Layout

namespace CloudBurrow.Registry

open Utf8 FileTree

section Names

theorem Scan.next_ne_slash {s s' : Scan} {b : UInt8} (h : s.next b = some s') : b ≠ 47 := by
  rintro rfl
  cases s <;> simp [Scan.next, isAlnum, inRange] at h

variable {c : Bytes}

theorem scan_ne_slash {s s' : Scan} (h : c.foldlM Scan.next s = some s') : 47 ∉ c := by
  induction c generalizing s with
  | nil => exact List.not_mem_nil
  | cons b c ih =>
    obtain ⟨mid, hb, hc⟩ := Option.bind_eq_some_iff.mp h
    rw [List.mem_cons]
    rintro (h47 | hmem)
    · exact Scan.next_ne_slash hb h47.symm
    · exact ih hc hmem

theorem componentRE_head (h : componentRE c = true) : ∃ b rest, c = b :: rest ∧ isAlnum b = true := by
  have hscan : c.foldlM Scan.next .start = some .word := of_decide_eq_true h
  cases c with
  | nil => simp at hscan
  | cons b rest =>
    obtain ⟨mid, hb, -⟩ := Option.bind_eq_some_iff.mp hscan
    refine ⟨b, rest, rfl, ?_⟩
    by_contra hnot
    simp [Scan.next, hnot] at hb

theorem componentRE_plain (h : componentRE c = true) : Plain c ∧ c ≠ manifestsDir := by
  obtain ⟨b, rest, rfl, hb⟩ := componentRE_head h
  have hscan : (b :: rest).foldlM Scan.next .start = some .word := of_decide_eq_true h
  have hne : ∀ b' rest', isAlnum b' = false → b :: rest ≠ b' :: rest' := by
    rintro b' rest' hb' heq
    rw [(List.cons.inj heq).1, hb'] at hb
    cases hb
  exact ⟨⟨List.cons_ne_nil b rest, scan_ne_slash hscan, hne 46 [] (by decide), hne 46 [46] (by decide)⟩,
    hne 95 (ascii "manifests") (by decide)⟩

theorem validTag_plain {tag : Bytes} (h : validTag tag = true) : Plain tag := by
  cases tag with
  | nil => cases h
  | cons b rest =>
    simp only [validTag, Bool.and_eq_true, List.all_eq_true] at h
    obtain ⟨⟨hb, -⟩, hrest⟩ := h
    have hhead : ∀ b' rest', isTagStart b' = false → b :: rest ≠ b' :: rest' := by
      rintro b' rest' hb' heq
      rw [(List.cons.inj heq).1, hb'] at hb
      cases hb
    refine ⟨List.cons_ne_nil b rest, ?_, hhead 46 [] (by decide), hhead 46 [46] (by decide)⟩
    rw [List.mem_cons]
    rintro (rfl | hmem)
    · revert hb
      decide
    · have h47 := hrest 47 hmem
      revert h47
      decide

theorem validDigest_hex {d : Bytes} (h : validDigest d = true) :
    ∃ hex, d = ascii "sha256:" ++ hex ∧ trimPrefix (ascii "sha256:") d = hex ∧ Plain hex := by
  simp only [validDigest, Bool.and_eq_true, decide_eq_true_eq, List.all_eq_true] at h
  obtain ⟨⟨hpre, hlen⟩, hhex⟩ := h
  obtain ⟨hex, rfl⟩ := List.isPrefixOf_iff_prefix.mp hpre
  have hdrop : (ascii "sha256:" ++ hex).drop 7 = hex := rfl
  rw [hdrop] at hlen hhex
  refine ⟨hex, rfl, ?_, fun hnil => ?_, fun hslash => ?_, fun hdot => ?_, fun hdots => ?_⟩
  · rw [trimPrefix, if_pos hpre]
    rfl
  · rw [hnil] at hlen
    cases hlen
  · have h47 := hhex 47 hslash
    revert h47
    decide
  · rw [hdot] at hlen
    revert hlen
    decide
  · rw [hdots] at hlen
    revert hlen
    decide

end Names

section Joining

theorem plain_repos : Plain (ascii "repos") := ⟨by decide, by decide, by decide, by decide⟩

theorem plain_revisions : Plain (ascii "revisions") := ⟨by decide, by decide, by decide, by decide⟩

theorem plain_sha256 : Plain (ascii "sha256") := ⟨by decide, by decide, by decide, by decide⟩

theorem plain_tags : Plain (ascii "tags") := ⟨by decide, by decide, by decide, by decide⟩

theorem plain_manifestsDir : Plain manifestsDir := ⟨by decide, by decide, by decide, by decide⟩

theorem clean_append {p q : Path} (hq : ∀ n ∈ q, Plain n) : clean (p ++ q) = clean p ++ q := by
  induction q generalizing p with
  | nil => simp
  | cons n q ih =>
    have hn := hq n List.mem_cons_self
    have hone : clean (p ++ [n]) = clean p ++ [n] := by
      unfold clean
      rw [List.foldl_append, List.foldl_cons, List.foldl_nil, if_neg (by simp [hn.nonempty, hn.dot]),
        if_neg hn.dots]
    have hrest := ih (p := p ++ [n]) fun m hm => hq m (List.mem_cons_of_mem _ hm)
    rw [hone] at hrest
    simpa using hrest

theorem clean_of_plain {q : Path} (hq : ∀ n ∈ q, Plain n) : clean q = q := by
  simpa [clean] using clean_append (p := []) hq

variable {parts : List Name}

theorem flatMap_split (h : ∀ n ∈ parts, Plain n) : (parts.flatMap fun part => part.splitOn 47) = parts := by
  induction parts with
  | nil => rfl
  | cons n parts ih =>
    rw [List.flatMap_cons, ih fun m hm => h m (List.mem_cons_of_mem _ hm),
      List.splitOn_eq_singleton (h n List.mem_cons_self).slash]
    rfl

variable {base : Path}

theorem join_plain (hbase : ∀ n ∈ base, Plain n) (hparts : ∀ n ∈ parts, Plain n) :
    join base parts = base ++ parts := by
  unfold join
  rw [flatMap_split hparts, clean_append hparts, clean_of_plain hbase]

theorem clean_plain {raw : Path} (h : ∀ n ∈ raw, 47 ∉ n) : ∀ n ∈ clean raw, Plain n := by
  induction raw using List.reverseRecOn with
  | nil => simp [clean]
  | append_singleton raw c ih =>
    have hbefore := ih fun n hn => h n (List.mem_append_left _ hn)
    have hsnoc : clean (raw ++ [c]) =
        if c = [] ∨ c = ascii "." then clean raw
        else if c = ascii ".." then (clean raw).dropLast else clean raw ++ [c] := by
      unfold clean
      rw [List.foldl_append]
      rfl
    intro n hn
    rw [hsnoc] at hn
    split_ifs at hn with hnone hup
    · exact hbefore n hn
    · exact hbefore n (List.mem_of_mem_dropLast hn)
    · rcases List.mem_append.mp hn with hold | hnew
      · exact hbefore n hold
      · rw [List.mem_singleton.mp hnew]
        push Not at hnone
        exact ⟨hnone.1, h c (by simp), hnone.2, hup⟩

theorem splitOn_ne_slash (s : Bytes) : ∀ n ∈ s.splitOn 47, 47 ∉ n := by
  induction s with
  | nil => simp
  | cons b s ih =>
    intro n hn
    rw [List.splitOn_cons_eq_if_modifyHead] at hn
    split_ifs at hn with hb
    · rcases List.mem_cons.mp hn with rfl | hmem
      · exact List.not_mem_nil
      · exact ih n hmem
    · cases hsplit : s.splitOn 47 with
      | nil => exact absurd hsplit (List.splitOn_ne_nil 47 s)
      | cons first rest =>
        rw [hsplit] at hn ih
        rcases List.mem_cons.mp hn with rfl | hmem
        · rw [List.mem_cons]
          rintro (h47 | hmem)
          · exact hb (by simp [h47])
          · exact ih first List.mem_cons_self hmem
        · exact ih n (List.mem_cons_of_mem _ hmem)

theorem join_is_plain (hbase : ∀ n ∈ base, Plain n) (parts : List Bytes) : ∀ n ∈ join base parts, Plain n := by
  apply clean_plain
  intro n hn
  rcases List.mem_append.mp hn with hb | hpart
  · exact (hbase n hb).slash
  · obtain ⟨part, -, hmem⟩ := List.mem_flatMap.mp hpart
    exact splitOn_ne_slash part n hmem

theorem join_append (first : List Bytes) (hparts : ∀ n ∈ parts, Plain n) :
    join base (first ++ parts) = join base first ++ parts := by
  unfold join
  rw [List.flatMap_append, flatMap_split hparts, ← List.append_assoc, clean_append hparts]

end Joining

section Places

variable {root : Root} {r r' : Repo} {image image' digest tag hex : Bytes}

theorem validImage_parts (h : validImage image = true) :
    ∀ c ∈ image.splitOn 47, Plain c ∧ c ≠ manifestsDir := by
  simp only [validImage, Bool.and_eq_true, List.all_eq_true] at h
  exact fun c hc => componentRE_plain (h.2 c hc).1

theorem splitOn_inj (h : image.splitOn 47 = image'.splitOn 47) : image = image' := by
  have hback : ∀ text : Bytes, [47].intercalate (text.splitOn 47) = text := fun text => List.intercalate_splitOn 47
  rw [← hback image, h, hback]

theorem dir_eq (root : Root) (r : Repo) :
    r.dir root = root.path ++ [ascii "repos", r.location, r.project, r.repository] := by
  apply join_plain root.plain
  intro n hn
  rcases List.mem_cons.mp hn with rfl | hrepo
  · exact plain_repos
  · exact r.plain n hrepo

theorem dir_plain (root : Root) (r : Repo) : ∀ n ∈ r.dir root, Plain n := join_is_plain root.plain _

theorem dir_ordinary (root : Root) (r : Repo) : manifestsDir ∉ r.dir root := by
  rw [dir_eq, List.mem_append, List.mem_cons]
  rintro (hroot | hrepos | hrepo)
  · exact root.ordinary hroot
  · exact absurd hrepos (by decide)
  · exact r.ordinary hrepo

theorem imagePath_eq (h : validImage image = true) : imagePath root r image = r.dir root ++ image.splitOn 47 := by
  have hparts := validImage_parts h
  have hflat : ([image].flatMap fun part => part.splitOn 47) = image.splitOn 47 := by simp
  unfold imagePath join
  rw [hflat, clean_append fun c hc => (hparts c hc).1, clean_of_plain (dir_plain root r)]

theorem imagePath_ordinary (h : validImage image = true) : manifestsDir ∉ imagePath root r image := by
  rw [imagePath_eq h, List.mem_append]
  rintro (hdir | himage)
  · exact dir_ordinary root r hdir
  · exact (validImage_parts h _ himage).2 rfl

theorem imageDir_eq (root : Root) (r : Repo) (image : Bytes) :
    imageDir root r image = imagePath root r image ++ [manifestsDir] :=
  join_append [image] fun n hn => by
    rw [List.mem_singleton.mp hn]
    exact plain_manifestsDir

theorem imageDir_plain (root : Root) (r : Repo) (image : Bytes) : ∀ n ∈ imageDir root r image, Plain n :=
  join_is_plain (dir_plain root r) _

theorem revisionPath_eq (h : Plain (trimPrefix (ascii "sha256:") digest)) : revisionPath root r image digest =
      imagePath root r image ++ [manifestsDir, ascii "revisions", ascii "sha256", trimPrefix (ascii "sha256:") digest] := by
  unfold revisionPath
  rw [join_plain (imageDir_plain root r image), imageDir_eq, List.append_assoc]
  · rfl
  · simp only [List.mem_cons, List.not_mem_nil, or_false]
    rintro n (rfl | rfl | rfl)
    exacts [plain_revisions, plain_sha256, h]

theorem tagPath_eq (h : Plain tag) :
    tagPath root r image tag = imagePath root r image ++ [manifestsDir, ascii "tags", tag] := by
  unfold tagPath
  rw [join_plain (imageDir_plain root r image), imageDir_eq, List.append_assoc]
  · rfl
  · simp only [List.mem_cons, List.not_mem_nil, or_false]
    rintro n (rfl | rfl)
    exacts [plain_tags, h]

variable {rest : Path}

theorem repo_of_dir (h : r.dir root <+: r'.dir root ++ rest) : r = r' := by
  have hlen : (r.dir root).length = (r'.dir root).length := by simp [dir_eq]
  have heq := List.IsPrefix.eq_of_length
    (List.prefix_of_prefix_length_le h (List.prefix_append _ rest) hlen.le) hlen
  rw [dir_eq, dir_eq] at heq
  have hnames := List.append_cancel_left heq
  simp only [List.cons.injEq, and_true, true_and] at hnames
  cases r
  cases r'
  simp only [Repo.mk.injEq]
  exact hnames

theorem prefix_of_prefix_manifests {p a : Path} (hp : manifestsDir ∉ p) (h : p <+: a ++ manifestsDir :: rest) :
    p <+: a := by
  rcases List.prefix_or_prefix_of_prefix h (List.prefix_append a _) with hpa | hap
  · exact hpa
  · obtain ⟨more, rfl⟩ := hap
    cases more with
    | nil => simp
    | cons c more =>
      rw [List.prefix_append_right_inj, List.cons_prefix_cons] at h
      exact absurd (by simp [h.1]) hp

theorem append_manifests_inj {a a' rest' : Path} (ha : manifestsDir ∉ a) (ha' : manifestsDir ∉ a')
    (h : a ++ manifestsDir :: rest = a' ++ manifestsDir :: rest') : a = a' ∧ rest = rest' := by
  have hpre : a <+: a' := prefix_of_prefix_manifests ha (h ▸ List.prefix_append a _)
  have hpre' : a' <+: a := prefix_of_prefix_manifests ha' (h ▸ List.prefix_append a' _)
  obtain rfl := hpre.eq_of_length (le_antisymm hpre.length_le hpre'.length_le)
  exact ⟨rfl, (List.cons.inj (List.append_cancel_left h)).2⟩

theorem imagePath_prefix (h : validImage image = true) (h' : validImage image' = true)
    (hpre : imagePath root r image <+: imagePath root r' image') : r = r' := by
  rw [imagePath_eq h, imagePath_eq h'] at hpre
  exact repo_of_dir ((List.prefix_append _ _).trans hpre)

theorem imagePath_inj (h : validImage image = true) (h' : validImage image' = true)
    (heq : imagePath root r image = imagePath root r' image') : r = r' ∧ image = image' := by
  obtain rfl : r = r' := by
    apply imagePath_prefix h h'
    rw [heq]
  rw [imagePath_eq h, imagePath_eq h'] at heq
  exact ⟨rfl, splitOn_inj (List.append_cancel_left heq)⟩

end Places

end CloudBurrow.Registry
