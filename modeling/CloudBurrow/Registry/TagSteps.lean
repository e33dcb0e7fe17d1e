import CloudBurrow.Registry.Tagging

namespace CloudBurrow.Registry

open Utf8 FileTree Threads

variable {root : Root} {t t' : Tree} {r r' : Repo} {image image' tag tag' digest content hex : Bytes}
  {but but' : Repo → Bytes → Bytes → Bytes → Prop} {gone : Path → Prop}

section Trees

theorem revision_ne_tag (himage : validImage image = true) (himage' : validImage image' = true) :
    revisionOf root r image hex ≠ tagOf root r' image' tag := by
  intro heq
  have hrest := (append_manifests_inj (imagePath_ordinary himage) (imagePath_ordinary himage') heq).2
  simp at hrest

theorem tagOf_eq_iff (htag : Plain tag') : tagOf root r image tag = tagPath root r' image' tag' ↔
    imagePath root r image = imagePath root r' image' ∧ tag = tag' := by
  have hpath : tagPath root r' image' tag' = tagOf root r' image' tag' := tagPath_eq htag
  rw [hpath]
  constructor
  · intro heq
    obtain ⟨hpaths, hrest⟩ := List.append_inj' heq rfl
    exact ⟨hpaths, by simpa using hrest⟩
  · rintro ⟨hpaths, rfl⟩
    rw [tagOf, tagOf, hpaths]

theorem TagsSound.narrow (h : TagsSound root t but)
    (hbut : ∀ r image tag content, t.node (tagOf root r image tag) = some (.file content) →
      but r image tag content → but' r image tag content) : TagsSound root t but' :=
  fun r image tag content himage hnode => (h r image tag content himage hnode).imp_right (hbut r image tag content hnode)

theorem TagsSound.weaken (h : TagsSound root t but) (hbut : ∀ r image tag content, but r image tag content → but' r image tag content) :
    TagsSound root t but' :=
  h.narrow fun r image tag content _ => hbut r image tag content

theorem TagsSound.grow (h : TagsSound root t but) (hfile : ∀ p c, t'.node p = some (.file c) → t.node p = some (.file c))
    (hsome : ∀ p, (t.node p).isSome → (t'.node p).isSome) : TagsSound root t' but := by
  intro r image tag content himage hnode
  rcases h r image tag content himage (hfile _ _ hnode) with ⟨hvalid, hrev⟩ | hbut
  · exact .inl ⟨hvalid, hsome _ hrev⟩
  · exact .inr hbut

theorem mkdirAll_isSome {p q : Path} (hmk : t.mkdirAll p = some t') (h : (t.node q).isSome) : (t'.node q).isSome := by
  rw [Tree.mkdirAll_node hmk]
  split_ifs
  · rfl
  · exact h

theorem writeFile_isSome {p q : Path} (hwrite : t.writeFile p content = some t') (h : (t.node q).isSome) :
    (t'.node q).isSome := by
  rw [(Tree.writeFile_node hwrite).2.2]
  split_ifs
  · rfl
  · exact h

theorem TagsSound.mkdirAll {p : Path} (h : TagsSound root t but) (hmk : t.mkdirAll p = some t') : TagsSound root t' but := by
  refine h.grow (fun q c hq => ?_) fun q hq => mkdirAll_isSome hmk hq
  rw [Tree.mkdirAll_node hmk] at hq
  split_ifs at hq
  · cases hq
  · exact hq

theorem TagsSound.writeRevision (h : TagsSound root t but) (himage : validImage image = true)
    (hwrite : t.writeFile (revisionOf root r image hex) content = some t') : TagsSound root t' but := by
  obtain ⟨-, -, hnode⟩ := Tree.writeFile_node hwrite
  intro r' image' tag content' himage' htag
  rw [hnode, if_neg (revision_ne_tag himage himage').symm] at htag
  exact (h r' image' tag content' himage' htag).imp_left fun hsound => ⟨hsound.1, writeFile_isSome hwrite hsound.2⟩

theorem TagsSound.writeTag (h : TagsSound root t but)
    (hwrite : t.writeFile (tagPath root r image tag) content = some t') :
    TagsSound root t' fun r' image' tag' content' =>
      but r' image' tag' content' ∨ tagOf root r' image' tag' = tagPath root r image tag ∧ content' = content := by
  obtain ⟨-, -, hnode⟩ := Tree.writeFile_node hwrite
  intro r' image' tag' content' himage' hfile
  rw [hnode] at hfile
  by_cases heq : tagOf root r' image' tag' = tagPath root r image tag
  · rw [if_pos heq] at hfile
    cases hfile
    exact .inr (.inr ⟨heq, rfl⟩)
  · rw [if_neg heq] at hfile
    rcases h r' image' tag' content' himage' hfile with ⟨hvalid, hrev⟩ | hbut
    · exact .inl ⟨hvalid, writeFile_isSome hwrite hrev⟩
    · exact .inr (.inl hbut)

theorem TagsSound.loses (h : TagsSound root t but) (hloses : t.Loses t' gone)
    (hbut : ∀ r image tag content, validImage image = true → t.node (tagOf root r image tag) = some (.file content) →
      ¬ gone (tagOf root r image tag) →
      but r image tag content ∨
        validDigest content = true ∧ gone (revisionOf root r image (Store.hexOf content)) → but' r image tag content) :
    TagsSound root t' but' := by
  intro r image tag content himage hnode
  obtain ⟨hold, hkept⟩ := hloses.of_some hnode
  rcases h r image tag content himage hold with ⟨hvalid, hrev⟩ | hexcept
  · by_cases hgone : gone (revisionOf root r image (Store.hexOf content))
    · exact .inr (hbut r image tag content himage hold hkept (.inr ⟨hvalid, hgone⟩))
    · refine .inl ⟨hvalid, ?_⟩
      rw [hloses.kept _ hgone]
      exact hrev
  · exact .inr (hbut r image tag content himage hold hkept (.inl hexcept))

theorem Laid.remove {p : Path} (h : Laid root t) (hremove : t.remove p = some t') : Laid root t' :=
  h.loses (Tree.remove_loses hremove).1 (Tree.remove_closed h.closed hremove)

theorem Laid.image_of_revision (h : Laid root t) (hrev : HasRevision root t r image digest) :
    ∃ r' image', validImage image' = true ∧ imagePath root r image = imagePath root r' image' := by
  obtain ⟨n, hn⟩ := Option.isSome_iff_exists.mp hrev
  obtain ⟨r', image', himage', heq, -⟩ := h.image_of hn (by simp)
  exact ⟨r', image', himage', heq⟩

theorem Laid.makeTag (h : Laid root t) (hrev : HasRevision root t r image digest) (htag : Plain tag)
    (hmk : t.mkdirAll (tagPath root r image tag).dropLast = some t') : Laid root t' := by
  obtain ⟨r', image', himage', heq⟩ := h.image_of_revision hrev
  have hpath : (tagPath root r image tag).dropLast = imagePath root r' image' ++ [manifestsDir, ascii "tags"] := by
    rw [show tagPath root r image tag = tagOf root r image tag from tagPath_eq htag, tagOf_dropLast, heq]
  rw [hpath] at hmk
  exact h.mkdirAll himage' (fun q hq => inner_tags hq) hmk

theorem Laid.writeTag (h : Laid root t) (hrev : HasRevision root t r image digest) (htag : Plain tag)
    (hwrite : t.writeFile (tagPath root r image tag) content = some t') : Laid root t' := by
  obtain ⟨r', image', himage', heq⟩ := h.image_of_revision hrev
  have hpath : tagPath root r image tag = imagePath root r' image' ++ [manifestsDir, ascii "tags", tag] := by
    rw [tagPath_eq htag, heq]
  rw [hpath] at hwrite
  exact h.writeFile himage' (.tag content htag) hwrite

end Trees

section Moves

variable {unmarshal : Bytes → Option ManifestDoc} {s : Store} {u u' : Thread}

def Moves (root : Root) (s : Store) (u : Thread) (after : List Thread × Store) : Prop :=
  (tagGuard root).Step s u after ∧ ∀ u' ∈ after.1, u'.Sound

theorem moves_outside {us : List Thread} {s' : Store} (hu : u.locked = false) (hus : ∀ u' ∈ us, u'.locked = false)
    (hlock : s'.lock = s.lock) (htree : s'.tree = s.tree) (hsound : ∀ u' ∈ us, u'.Sound) :
    Moves root s u (us, s') := by
  refine ⟨.outside hu hus hlock ?_ fun u' _ hheld => ?_, hsound⟩
  · rintro ⟨hlaid, htags⟩
    exact ⟨htree ▸ hlaid, htree ▸ htags⟩
  · change Phase root s'.tree u'
    rw [htree]
    exact hheld

theorem moves_inside {s' : Store} (hu : u.locked = true) (hu' : u'.locked = true) (hlock : s'.lock = s.lock)
    (hsound : u'.Sound) (hphase : Phase root s'.tree u') : Moves root s u ([u'], s') := by
  refine ⟨.inside hu hu' hlock hphase, fun u'' hu'' => ?_⟩
  rw [List.mem_singleton.mp hu'']
  exact hsound

theorem moves_edits {result : Option Tree} (hu : u.locked = true) (hu' : u'.locked = true) (hsound : u'.Sound)
    (hfail : result = none → Phase root s.tree .unlocking) (hdone : ∀ t', result = some t' → Phase root t' u') :
    Moves root s u (s.edits result u') := by
  unfold Store.edits
  cases result with
  | none => exact moves_inside hu rfl rfl trivial (hfail rfl)
  | some t' => exact moves_inside hu hu' rfl hsound (hdone t' rfl)

theorem moves_end {s' : Store} (hu : u.locked = false) (hlock : s'.lock = s.lock) (htree : s'.tree = s.tree) :
    Moves root s u ([], s') :=
  moves_outside hu (fun _ h => absurd h List.not_mem_nil) hlock htree fun _ h => absurd h List.not_mem_nil

theorem moves_next {s' : Store} (hu : u.locked = false) (hu' : u'.locked = false) (hlock : s'.lock = s.lock)
    (htree : s'.tree = s.tree) (hsound : u'.Sound) : Moves root s u ([u'], s') := by
  refine moves_outside hu (fun u'' h => ?_) hlock htree fun u'' h => ?_
  · rw [List.mem_singleton.mp h]
    exact hu'
  · rw [List.mem_singleton.mp h]
    exact hsound

def Advances (unmarshal : Bytes → Option ManifestDoc) (root : Root) (input : Input) (s : Store) (u : Thread) : Prop :=
  u.Sound → Phase root s.tree u → Moves root s u (Store.advance unmarshal root input u s)

theorem moves_ite {c : Prop} [Decidable c] {a b : List Thread × Store} (ha : c → Moves root s u a)
    (hb : ¬ c → Moves root s u b) : Moves root s u (if c then a else b) := by
  split_ifs with hc
  · exact ha hc
  · exact hb hc

theorem start_moves (id : Bytes) : Moves root s (.call .startUpload) ([], s.start id) := by
  unfold Store.start
  split
  all_goals exact moves_end rfl rfl rfl

theorem begin_moves (input : Input) {c : Call} (hc : c.Proper) :
    Moves root s (.call c) (s.begin unmarshal input c) := by
  have hend : Moves root s (.call c) ([], s) := moves_end rfl rfl rfl
  have hnext : ∀ u', u'.locked = false → u'.Sound → Moves root s (.call c) ([u'], s) :=
    fun u' hu' hsound => moves_next rfl hu' rfl rfl hsound
  cases c with
  | startUpload => exact start_moves input.id
  | putBlob b => exact moves_ite (fun _ => hend) fun _ => hnext _ rfl trivial
  | appendUpload id chunks | finishUpload id digest | readBlob digest =>
    refine moves_ite (fun _ => hend) fun _ => ?_
    split
    · exact hend
    · exact hnext _ rfl trivial
  | cancelUpload id | deleteBlob digest => exact moves_ite (fun _ => hend) fun _ => moves_end rfl rfl rfl
  | putManifest r image ref contentType b =>
    simp only [Store.begin]
    split
    · exact hend
    · exact hnext _ rfl trivial
  | getManifest r image ref =>
    exact moves_ite (fun _ => hend) fun _ => moves_ite (fun _ => hnext _ rfl trivial) fun _ =>
      moves_ite (fun _ => hnext _ rfl trivial) fun _ => hend
  | setTag r image tag digest => exact moves_ite (fun _ => hend) fun htag => hnext _ rfl ⟨by simpa using htag, hc⟩
  | delete d =>
    cases d with
    | deleteTag r image tag =>
      exact moves_ite (fun _ => hend) fun htag => hnext _ rfl (show validTag tag = true by simpa using htag)
    | deleteManifest r image digest =>
      exact moves_ite (fun _ => hend) fun hdigest => hnext _ rfl ⟨hc, by simpa using hdigest⟩
    | deleteImage r image =>
      exact moves_ite (fun _ => hend) fun himage => hnext _ rfl (show validImage image = true by simpa using himage)
    | deleteRepository r => exact hnext _ rfl trivial

theorem first_moves {w : Work} (hw : w.Proper) (hlock : s.lock = false) :
    Moves root s (.locking w) ([Store.first root w], { s with lock := true }) := by
  have hlocked : (Store.first root w).locked = true := by
    cases w with
    | push p => rfl
    | setTag r image tag digest => rfl
    | delete d => cases d <;> rfl
  have hsound : (Store.first root w).Sound := by
    cases w with
    | push p => trivial
    | setTag r image tag digest => exact hw
    | delete d =>
      cases d with
      | deleteTag r image tag | deleteManifest r image digest | deleteImage r image => exact hw
      | deleteRepository r => exact dir_ordinary root r
  refine ⟨.take rfl hlock rfl hlocked ?_, fun u' hu' => List.mem_singleton.mp hu' ▸ hsound⟩
  rintro ⟨hlaid, htags⟩
  refine ⟨hlaid, htags.weaken fun r image tag content h => h.elim, ?_⟩
  cases w with
  | push p => trivial
  | setTag r image tag digest => trivial
  | delete d => cases d <;> trivial

theorem Phase.sound (h : Phase root t u) (hnone : u.Pending root = noTag) : Phase root t .unlocking := by
  have htags := h.tags
  rw [hnone] at htags
  exact ⟨h.laid, htags, trivial⟩

end Moves

section Pushing

variable {unmarshal : Bytes → Option ManifestDoc} {input : Input} {s : Store} {p : Push}

theorem revisionPath_of_valid (h : validDigest digest = true) :
    revisionPath root r image digest = revisionOf root r image (Store.hexOf digest) :=
  revisionPath_eq (hexOf_plain h)

theorem Push.digest_valid (p : Push) : validDigest p.digest = true := digestOf_valid p.content

theorem makingRevision_moves : Advances unmarshal root input s (.makingRevision p) := by
  intro _ h
  refine moves_edits rfl rfl trivial (fun _ => h.sound rfl) fun t' hmk => ⟨?_, h.tags.mkdirAll hmk, trivial⟩
  rw [revisionPath_of_valid p.digest_valid, revisionOf_dropLast] at hmk
  exact h.laid.mkdirAll p.image_valid (fun q hq => inner_digests hq) hmk

theorem writeRevision_phase {u : Thread} {content : Bytes} (h : Phase root t u) (hnone : u.Pending root = noTag)
    (hwrite : t.writeFile (revisionPath root p.repo p.image p.digest) content = some t') :
    Laid root t' ∧ TagsSound root t' noTag ∧ HasRevision root t' p.repo p.image p.digest := by
  have hdigest := p.digest_valid
  rw [revisionPath_of_valid hdigest] at hwrite
  refine ⟨h.laid.writeFile p.image_valid (.revision content (hexOf_plain hdigest)) hwrite,
    (h.sound hnone).tags.writeRevision p.image_valid hwrite, ?_⟩
  obtain ⟨-, -, hnode⟩ := Tree.writeFile_node hwrite
  unfold HasRevision
  rw [hnode, if_pos rfl]
  rfl

theorem truncatingRevision_moves : Advances unmarshal root input s (.truncatingRevision p) := by
  intro _ h
  refine moves_edits rfl rfl trivial (fun _ => h.sound rfl) fun t' hwrite => ?_
  obtain ⟨hlaid, htags, -⟩ := writeRevision_phase h rfl hwrite
  exact ⟨hlaid, htags, trivial⟩

theorem writingRevision_moves : Advances unmarshal root input s (.writingRevision p) := by
  intro _ h
  simp only [Store.advance]
  cases htag : p.tag with
  | none =>
    refine moves_edits rfl rfl trivial (fun _ => h.sound rfl) fun t' hwrite => ?_
    obtain ⟨hlaid, htags, -⟩ := writeRevision_phase h rfl hwrite
    exact ⟨hlaid, htags, trivial⟩
  | some tag =>
    refine moves_edits rfl rfl ⟨p.tag_valid tag htag, p.digest_valid⟩ (fun _ => h.sound rfl)
      fun t' hwrite => ?_
    obtain ⟨hlaid, htags, hrev⟩ := writeRevision_phase h rfl hwrite
    exact ⟨hlaid, htags, hrev⟩

theorem makingTag_moves : Advances unmarshal root input s (.makingTag r image tag digest) := by
  intro hsound h
  refine moves_edits rfl rfl hsound (fun _ => h.sound rfl) fun t' hmk =>
    ⟨h.laid.makeTag h.needs (validTag_plain hsound.1) hmk, h.tags.mkdirAll hmk, mkdirAll_isSome hmk h.needs⟩

theorem truncatingTag_moves : Advances unmarshal root input s (.truncatingTag r image tag digest) := by
  intro hsound h
  refine moves_edits rfl rfl hsound (fun _ => h.sound rfl) fun t' hwrite =>
    ⟨h.laid.writeTag h.needs (validTag_plain hsound.1) hwrite,
      (h.tags.writeTag hwrite).weaken fun r' image' tag' content' hbut => hbut.elim False.elim And.left,
      writeFile_isSome hwrite h.needs, [], ?_⟩
  rw [(Tree.writeFile_node hwrite).2.2, if_pos rfl]

theorem writingTag_moves : Advances unmarshal root input s (.writingTag r image tag digest) := by
  intro hsound h
  have htag := validTag_plain hsound.1
  obtain ⟨hrev, content, hfile⟩ := h.needs
  -- the file was made by the step before, so it can be written
  have hdir : s.tree.node (tagPath root r image tag).dropLast = some .dir := by
    have hpath : tagPath root r image tag = tagOf root r image tag := tagPath_eq htag
    have hsome : (s.tree.node ((tagPath root r image tag).dropLast ++ [tag])).isSome := by
      have hback : (tagPath root r image tag).dropLast ++ [tag] = tagPath root r image tag := by
        rw [hpath, tagOf_dropLast, List.append_assoc]
        rfl
      rw [hback, hfile]
      rfl
    exact h.laid.closed _ _ hsome
  have hwritten : s.tree.writeFile (tagPath root r image tag) digest =
      some (s.tree.put (tagPath root r image tag) (.file digest)) := by
    simp only [Tree.writeFile, hfile, hdir]
  refine moves_edits rfl rfl trivial (fun hnone => ?_) fun t' hwrite => ?_
  · rw [hwritten] at hnone
    cases hnone
  · refine ⟨h.laid.writeTag hrev htag hwrite, ?_, trivial⟩
    intro r' image' tag' content' himage' hnode'
    rcases h.tags.writeTag hwrite r' image' tag' content' himage' hnode' with hgood | hbut
    · exact .inl hgood
    · have hpath : tagOf root r' image' tag' = tagPath root r image tag := hbut.elim id And.left
      obtain ⟨-, -, hnode⟩ := Tree.writeFile_node hwrite
      rw [hnode, if_pos hpath] at hnode'
      obtain rfl : digest = content' := by simpa using hnode'
      refine .inl ⟨hsound.2, ?_⟩
      have hsame : revisionOf root r' image' (Store.hexOf digest) = revisionOf root r image (Store.hexOf digest) := by
        rw [revisionOf, revisionOf, ((tagOf_eq_iff htag).mp hpath).1]
      exact hsame ▸ writeFile_isSome hwrite hrev

end Pushing

section Deleting

variable {unmarshal : Bytes → Option ManifestDoc} {input : Input} {s : Store}

theorem removingTag_moves : Advances unmarshal root input s (.removingTag r image tag) := by
  intro htag h
  refine moves_edits rfl rfl trivial (fun _ => h.sound rfl) fun t' hremove => ?_
  obtain ⟨hloses, hsome, -⟩ := Tree.remove_loses hremove
  have hpath : tagPath root r image tag = tagOf root r image tag := tagPath_eq (validTag_plain htag)
  refine ⟨h.laid.remove hremove, h.tags.loses hloses fun r' image' tag' content himage' _ _ hout => ?_, trivial⟩
  rcases hout with hpending | ⟨-, hgone⟩
  · exact hpending
  · obtain ⟨n, hn⟩ := Option.isSome_iff_exists.mp hsome
    rw [hpath] at hn hgone
    obtain ⟨r₁, image₁, himage₁, heq, -⟩ := h.laid.image_of hn (by simp)
    have hsame : tagOf root r image tag = tagOf root r₁ image₁ tag := by
      rw [tagOf, tagOf, heq]
    exact revision_ne_tag himage' himage₁ (hgone.trans hsame)

theorem removingRevision_moves : Advances unmarshal root input s (.removingRevision r image digest) := by
  intro hsound h
  refine moves_edits rfl rfl hsound (fun _ => h.sound rfl) fun t' hremove => ?_
  obtain ⟨hloses, -, -⟩ := Tree.remove_loses hremove
  refine ⟨h.laid.remove hremove, h.tags.loses hloses fun r' image' tag' content himage' _ _ hout => ?_, trivial⟩
  rcases hout with hpending | ⟨hcontent, hgone⟩
  · exact hpending.elim
  · rw [revisionPath_of_valid hsound.2] at hgone
    obtain ⟨hpath, hrest⟩ :=
      append_manifests_inj (imagePath_ordinary himage') (imagePath_ordinary hsound.1) hgone
    obtain ⟨rfl, rfl⟩ := imagePath_inj himage' hsound.1 hpath
    exact ⟨rfl, rfl, hexOf_inj hcontent hsound.2 (by simpa using hrest)⟩

theorem tagsDir_eq (root : Root) (r : Repo) (image : Bytes) :
    join (imageDir root r image) [ascii "tags"] = imagePath root r image ++ [manifestsDir, ascii "tags"] := by
  rw [join_plain (imageDir_plain root r image) (by simp [plain_tags]), imageDir_eq, List.append_assoc]
  rfl

theorem tagOf_child (tag : Bytes) :
    imagePath root r image ++ [manifestsDir, ascii "tags"] ++ [tag] = tagOf root r image tag := by
  rw [tagOf, List.append_assoc]
  rfl

theorem Laid.tag_plain (h : Laid root t) (hsome : (t.node (tagOf root r image tag)).isSome) : Plain tag := by
  obtain ⟨n, hn⟩ := Option.isSome_iff_exists.mp hsome
  obtain ⟨-, -, -, -, hinner⟩ := @Laid.image_of _ _ _ [ascii "tags", tag] _ h hn (by simp)
  exact hinner.tag_plain

theorem listingTags_moves : Advances unmarshal root input s (.listingTags r image digest) := by
  intro hsound h
  simp only [Store.advance]
  have hthere : ∀ tag', (s.tree.node (tagOf root r image tag')).isSome →
      s.tree.node (imageDir root r image) = some .dir := by
    intro tag' hsome
    rw [imageDir_eq]
    apply h.laid.closed.above (q := [ascii "tags", tag']) (by simp)
    rw [List.append_assoc]
    exact hsome
  by_cases hnone : (!validImage image || (s.tree.node (imageDir root r image)).isNone) = true
  · rw [if_pos hnone]
    refine moves_inside rfl rfl rfl hsound ⟨h.laid, h.tags.narrow ?_, fun n hn => absurd hn List.not_mem_nil⟩
    rintro r' image' tag' content hnode ⟨rfl, rfl, -⟩
    have hdir := hthere tag' (by rw [hnode]; rfl)
    rw [hdir, hsound.1] at hnone
    cases hnone
  · rw [if_neg hnone]
    refine moves_inside rfl rfl rfl hsound ⟨h.laid, h.tags.narrow ?_, ?_⟩
    · rintro r' image' tag' content hnode ⟨rfl, rfl, rfl⟩
      refine ⟨⟨rfl, rfl, rfl⟩, .inl (Tree.mem_children.mpr ?_)⟩
      rw [tagsDir_eq, tagOf_child, hnode]
      rfl
    · rintro n (hn | hn)
      · have hsome := Tree.mem_children.mp hn
        rw [tagsDir_eq, tagOf_child] at hsome
        exact h.laid.tag_plain hsome
      · exact absurd hn List.not_mem_nil

theorem readingTags_moves {name : Name} {rest naming : List Name} :
    Advances unmarshal root input s (.readingTags r image digest (name :: rest) naming) := by
  intro hsound h
  simp only [Store.advance]
  have hplain : Plain name := h.needs name (.inl List.mem_cons_self)
  have hpath : join (imageDir root r image) [ascii "tags", name] = tagOf root r image name := tagPath_eq hplain
  rw [hpath]
  have hrest : ∀ naming', (∀ n, n ∈ naming → n ∈ naming') → (∀ n ∈ naming', Plain n) →
      (∀ content, s.tree.node (tagOf root r image name) = some (.file content) → content = digest → name ∈ naming') →
      Phase root s.tree (.readingTags r image digest rest naming') := by
    intro naming' hsub hnew hname
    refine ⟨h.laid, h.tags.narrow ?_, fun n hn => ?_⟩
    · rintro r' image' tag' content hnode ⟨⟨rfl, rfl, rfl⟩, hmem⟩
      refine ⟨⟨rfl, rfl, rfl⟩, ?_⟩
      rcases hmem with hmem | hmem
      · rcases List.mem_cons.mp hmem with rfl | hmem
        · exact .inr (hname _ hnode rfl)
        · exact .inl hmem
      · exact .inr (hsub _ hmem)
    · exact hn.elim (fun hn => h.needs n (.inl (List.mem_cons_of_mem _ hn))) (hnew n)
  split
  · rename_i b hb
    refine moves_inside rfl rfl rfl hsound (hrest _ (fun n hn => ?_) (fun n hn => ?_) fun content hc hd => ?_)
    · split_ifs
      · exact List.mem_append_left _ hn
      · exact hn
    · split_ifs at hn
      · rcases List.mem_append.mp hn with hn | hn
        · exact h.needs n (.inr hn)
        · rw [List.mem_singleton.mp hn]
          exact hplain
      · exact h.needs n (.inr hn)
    · obtain rfl : b = content := by simpa [hb] using hc
      rw [hd, if_pos (validDigest_trimmed hsound.2)]
      exact List.mem_append_right _ List.mem_cons_self
  · rename_i hnot
    refine moves_inside rfl rfl rfl hsound (hrest _ (fun n hn => hn) (fun n hn => h.needs n (.inr hn)) ?_)
    intro content hc
    exact absurd hc (hnot content)

theorem untagging_moves {tag : Name} {rest : List Name} :
    Advances unmarshal root input s (.untagging r image digest (tag :: rest)) := by
  intro hsound h
  have hplain : Plain tag := h.needs tag List.mem_cons_self
  have hpath : tagPath root r image tag = tagOf root r image tag := tagPath_eq hplain
  have hneeds : ∀ n ∈ rest, Plain n := fun n hn => h.needs n (List.mem_cons_of_mem _ hn)
  refine moves_inside rfl rfl rfl hsound ?_
  change Phase root ((s.tree.remove (tagPath root r image tag)).getD s.tree) _
  rw [hpath]
  cases hremove : s.tree.remove (tagOf root r image tag) with
  | none =>
    have hnone : s.tree.node (tagOf root r image tag) = none :=
      (h.laid.remove_none rfl (by simp) fun n hn => hn.tag_file).mp hremove
    refine ⟨h.laid, h.tags.narrow ?_, hneeds⟩
    rintro r' image' tag' content hnode ⟨⟨rfl, rfl, rfl⟩, hmem⟩
    rcases List.mem_cons.mp hmem with rfl | hmem
    · exact absurd (hnone.symm.trans hnode) (by simp)
    · exact ⟨⟨rfl, rfl, rfl⟩, hmem⟩
  | some t' =>
    obtain ⟨hloses, -, -⟩ := Tree.remove_loses hremove
    refine ⟨h.laid.remove hremove, h.tags.loses hloses fun r' image' tag' content himage' _ hkept hout => ?_, hneeds⟩
    rcases hout with ⟨⟨rfl, rfl, rfl⟩, hmem⟩ | ⟨-, hgone⟩
    · rcases List.mem_cons.mp hmem with rfl | hmem
      · exact absurd rfl hkept
      · exact ⟨⟨rfl, rfl, rfl⟩, hmem⟩
    · exact absurd hgone (revision_ne_tag himage' hsound.1)

theorem removingAll_moves {path dir stop : Path} : Advances unmarshal root input s (.removingAll path dir stop) := by
  intro hsound h
  simp only [Store.advance]
  split_ifs with hany hleaf
  · refine moves_inside rfl rfl rfl hsound ?_
    have hloses := Tree.without_loses s.tree fun q => q = input.leaf
    have hclosed : (s.tree.without fun q => q = input.leaf).Closed := by
      refine hloses.closed h.laid.closed fun p x hp hx => ?_
      obtain rfl : p = input.leaf := of_decide_eq_true hp
      have hmem := Tree.mem_children.mpr hx
      rw [hleaf.2] at hmem
      cases hmem
    refine ⟨h.laid.loses hloses hclosed, h.tags.loses hloses fun r' image' tag' content himage' _ _ hout => ?_, trivial⟩
    rcases hout with hpending | ⟨-, hgone⟩
    · exact hpending
    · have heq : revisionOf root r' image' (Store.hexOf content) = input.leaf := of_decide_eq_true hgone
      have hpre : path <+: revisionOf root r' image' (Store.hexOf content) := heq ▸ hleaf.1
      exact prefix_of_prefix_manifests hsound hpre
  · exact moves_inside rfl rfl rfl hsound h
  · refine moves_inside rfl rfl rfl trivial ⟨h.laid, h.tags.narrow fun r' image' tag' content hnode hpending => hany ?_, trivial⟩
    have hsome : (s.tree.node (tagOf root r' image' tag')).isSome := by rw [hnode]; rfl
    obtain ⟨n, hmem⟩ := Tree.node_isSome.mp hsome
    have hpre : path <+: imagePath root r' image' := hpending
    exact List.any_eq_true.mpr ⟨_, hmem, List.isPrefixOf_iff_prefix.mpr (hpre.trans (List.prefix_append _ _))⟩

theorem removingEmpty_moves {dir stop : Path} : Advances unmarshal root input s (.removingEmpty dir stop) := by
  intro _ h
  refine moves_inside rfl rfl rfl trivial ?_
  change Phase root ((s.tree.remove dir).getD s.tree) _
  cases hremove : s.tree.remove dir with
  | none => exact ⟨h.laid, h.tags, trivial⟩
  | some t' =>
    obtain ⟨hloses, -, -⟩ := Tree.remove_loses hremove
    refine ⟨h.laid.remove hremove, ?_, trivial⟩
    -- what a tag names is a file, and only directories are taken away
    intro r' image' tag' content himage' hnode
    obtain ⟨hold, -⟩ := hloses.of_some hnode
    rcases h.tags r' image' tag' content himage' hold with ⟨hvalid, hrev⟩ | hpending
    · obtain ⟨n, hn⟩ := Option.isSome_iff_exists.mp hrev
      obtain ⟨-, -, -, -, hinner⟩ := h.laid.image_of hn (by simp)
      obtain ⟨mediaType, rfl⟩ := hinner.revision_file
      refine .inl ⟨hvalid, ?_⟩
      have hdir : s.tree.node dir = some .dir := h.needs
      have hne : revisionOf root r' image' (Store.hexOf content) ≠ dir := by
        rintro rfl
        rw [hn] at hdir
        cases hdir
      rw [show (some t').getD s.tree = t' from rfl, hloses.kept _ hne, hn]
      rfl
    · exact hpending.elim

end Deleting

section Stages

variable {unmarshal : Bytes → Option ManifestDoc} {input : Input} {s : Store} {p : Push}

theorem hashing_moves {id got : Bytes} {inode : Nat} :
    Moves root s (.hashing id digest inode got) (Store.advance unmarshal root input (.hashing id digest inode got) s) :=
  moves_ite (fun _ => moves_next rfl rfl rfl rfl trivial) fun _ =>
    moves_ite (fun _ => moves_next rfl rfl rfl rfl trivial) fun _ => moves_end rfl rfl rfl

theorem checkingBlobs_moves (digests : List Bytes) :
    Moves root s (.checkingBlobs digests p) (Store.advance unmarshal root input (.checkingBlobs digests p) s) := by
  cases digests with
  | nil => exact moves_next rfl rfl rfl rfl trivial
  | cons d rest => exact moves_ite (fun _ => moves_next rfl rfl rfl rfl trivial) fun _ => moves_end rfl rfl rfl

theorem Phase.next {u u' : Thread} (h : Phase root t u) (hpending : u'.Pending root = u.Pending root)
    (hneeds : u'.Needs root t) : Phase root t u' :=
  ⟨h.laid, hpending ▸ h.tags, hneeds⟩

theorem checkingManifests_moves (digests : List Bytes) : Advances unmarshal root input s (.checkingManifests digests p) := by
  intro _ h
  cases digests with
  | nil => exact moves_inside rfl rfl rfl trivial (h.next rfl trivial)
  | cons d rest =>
    exact moves_ite (fun _ => moves_inside rfl rfl rfl trivial (h.next rfl trivial)) fun _ =>
      moves_inside rfl rfl rfl trivial (h.next rfl trivial)

theorem storing_moves : Advances unmarshal root input s (.storing p) := fun _ h =>
  moves_ite (fun _ => moves_inside rfl rfl rfl trivial (h.next rfl trivial)) fun _ =>
    moves_inside rfl rfl rfl trivial (h.next rfl trivial)

theorem statingRevision_moves : Advances unmarshal root input s (.statingRevision r image tag digest) := by
  intro hsound h
  refine moves_ite (fun hsome => ?_) fun _ => moves_inside rfl rfl rfl trivial (h.next rfl trivial)
  rw [revisionPath_of_valid hsound.2] at hsome
  exact moves_inside rfl rfl rfl hsound (h.next rfl hsome)

theorem readTags_moves {naming : List Name} : Advances unmarshal root input s (.readingTags r image digest [] naming) := by
  intro hsound h
  refine moves_inside rfl rfl rfl hsound ⟨h.laid, h.tags.weaken ?_, fun n hn => h.needs n (.inr hn)⟩
  rintro r' image' tag' content ⟨hown, hmem⟩
  exact ⟨hown, hmem.resolve_left List.not_mem_nil⟩

theorem untagged_moves : Advances unmarshal root input s (.untagging r image digest []) := by
  intro hsound h
  refine moves_inside rfl rfl rfl hsound ⟨h.laid, h.tags.weaken ?_, trivial⟩
  rintro r' image' tag' content ⟨-, hmem⟩
  exact absurd hmem List.not_mem_nil

theorem removingImage_moves {u : Thread} (himage : validImage image = true) (h : Phase root s.tree .unlocking)
    (hu : u.locked = true) (dir stop : Path) :
    Moves root s u ([.removingAll (imagePath root r image) dir stop], s) :=
  moves_inside hu rfl rfl (imagePath_ordinary himage)
    ⟨h.laid, h.tags.weaken fun _ _ _ _ hnone => hnone.elim, trivial⟩

theorem pruning_moves {dir stop : Path} : Advances unmarshal root input s (.pruning dir stop) := fun _ h =>
  moves_ite (fun hempty => moves_inside rfl rfl rfl trivial (h.next rfl hempty.2.2.1)) fun _ =>
    moves_inside rfl rfl rfl trivial (h.next rfl trivial)

end Stages

theorem advance_moves (unmarshal : Bytes → Option ManifestDoc) (input : Input) {u : Thread} {s : Store} (hsound : u.Sound)
    (hheld : u.locked = true → Phase root s.tree u) : Moves root s u (Store.advance unmarshal root input u s) := by
  cases u with
  | call c => exact begin_moves input hsound
  | appending inode chunks =>
    cases chunks with
    | nil => exact moves_end rfl rfl rfl
    | cons chunk rest => exact moves_next rfl rfl rfl rfl trivial
  | hashing id digest inode got => exact hashing_moves
  | moving id digest inode =>
    simp only [Store.advance]
    split
    all_goals exact moves_end rfl rfl rfl
  | creatingTemp b then' | writingTemp b then' =>
    cases then' with
    | none => exact moves_next rfl rfl rfl rfl trivial
    | some p => exact moves_inside rfl rfl rfl trivial ((hheld rfl).next rfl trivial)
  | placing b then' =>
    cases then' with
    | none => exact moves_end rfl rfl rfl
    | some p => exact moves_inside rfl rfl rfl trivial ((hheld rfl).next rfl trivial)
  | reading digest inode got =>
    exact moves_ite (fun _ => moves_next rfl rfl rfl rfl trivial) fun _ => moves_end rfl rfl rfl
  | readingTag r image tag | readingRevision r image digest =>
    simp only [Store.advance]
    split
    · exact moves_next rfl rfl rfl rfl trivial
    · exact moves_end rfl rfl rfl
  | checkingBlobs digests p => exact checkingBlobs_moves digests
  | locking w =>
    exact moves_ite (fun _ => moves_next rfl rfl rfl rfl hsound) fun hlock => first_moves hsound (by simpa using hlock)
  | checkingManifests digests p => exact checkingManifests_moves digests hsound (hheld rfl)
  | storing p => exact storing_moves hsound (hheld rfl)
  | makingRevision p => exact makingRevision_moves hsound (hheld rfl)
  | truncatingRevision p => exact truncatingRevision_moves hsound (hheld rfl)
  | writingRevision p => exact writingRevision_moves hsound (hheld rfl)
  | statingRevision r image tag digest => exact statingRevision_moves hsound (hheld rfl)
  | makingTag r image tag digest => exact makingTag_moves hsound (hheld rfl)
  | truncatingTag r image tag digest => exact truncatingTag_moves hsound (hheld rfl)
  | writingTag r image tag digest => exact writingTag_moves hsound (hheld rfl)
  | removingTag r image tag => exact removingTag_moves hsound (hheld rfl)
  | removingRevision r image digest => exact removingRevision_moves hsound (hheld rfl)
  | listingTags r image digest => exact listingTags_moves hsound (hheld rfl)
  | readingTags r image digest names naming =>
    cases names with
    | nil => exact readTags_moves hsound (hheld rfl)
    | cons name rest => exact readingTags_moves hsound (hheld rfl)
  | untagging r image digest naming =>
    cases naming with
    | nil => exact untagged_moves hsound (hheld rfl)
    | cons tag rest => exact untagging_moves hsound (hheld rfl)
  | countingRevisions r image digest =>
    have hphase := (hheld rfl).sound rfl
    exact moves_ite (fun _ => removingImage_moves hsound.1 hphase rfl _ _) fun _ =>
      moves_inside rfl rfl rfl trivial hphase
  | statingImage r image =>
    have hphase := (hheld rfl).sound rfl
    exact moves_ite (fun _ => moves_inside rfl rfl rfl trivial hphase) fun _ =>
      removingImage_moves hsound hphase rfl _ _
  | removingAll path dir stop => exact removingAll_moves hsound (hheld rfl)
  | pruning dir stop => exact pruning_moves hsound (hheld rfl)
  | removingEmpty dir stop => exact removingEmpty_moves hsound (hheld rfl)
  | unlocking =>
    have hphase := hheld rfl
    exact ⟨.release rfl (fun u' hu' => absurd hu' List.not_mem_nil) rfl ⟨hphase.laid, hphase.tags⟩,
      fun u' hu' => absurd hu' List.not_mem_nil⟩

end CloudBurrow.Registry
