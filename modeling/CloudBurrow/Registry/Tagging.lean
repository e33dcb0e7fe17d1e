import CloudBurrow.Registry.Server

namespace CloudBurrow.Registry

open Utf8 FileTree Threads

section Digests

theorem validDigest_trimmed {d : Bytes} (h : validDigest d = true) : trimSpace d = d := by
  obtain ⟨hex, rfl, -, -⟩ := validDigest_hex h
  have hhex : ∀ b ∈ hex, isHex b = true := by
    simp only [validDigest, Bool.and_eq_true, List.all_eq_true] at h
    exact h.2
  have hstart : ∀ n, trimStart spaces n (ascii "sha256:" ++ hex) = ascii "sha256:" ++ hex := by
    intro n
    cases n with
    | zero => rfl
    | succ n => rfl
  have hend : ∀ n, trimStart (spaces.map List.reverse) n (ascii "sha256:" ++ hex).reverse =
      (ascii "sha256:" ++ hex).reverse := by
    intro n
    cases n with
    | zero => rfl
    | succ n =>
      have hnone : (spaces.map List.reverse).find?
          (fun mark => mark.isPrefixOf (ascii "sha256:" ++ hex).reverse) = none := by
        rw [List.find?_eq_none]
        -- no mark ends in a hexadecimal digit or a colon
        have hmarks : ∀ mark ∈ spaces.map List.reverse,
            mark ≠ [] ∧ isHex (mark.headD 0) = false ∧ mark.headD 0 ≠ 58 := by decide
        intro mark hmark
        obtain ⟨hne, hb, hcolon⟩ := hmarks mark hmark
        obtain ⟨b, rest, rfl⟩ := List.exists_cons_of_ne_nil hne
        rw [List.headD_cons] at hb hcolon
        rw [List.reverse_append]
        cases hrev : hex.reverse with
        | nil =>
          have h58 : (b == (58 : UInt8)) = false := by simpa using hcolon
          simp [ascii, List.isPrefixOf, h58]
        | cons c more =>
          have hc : isHex c = true := hhex c (List.mem_reverse.mp (hrev ▸ List.mem_cons_self))
          have hne : (b == c) = false := by
            rw [beq_eq_false_iff_ne]
            rintro rfl
            rw [hb] at hc
            cases hc
          simp [List.isPrefixOf, hne]
      simp only [trimStart, hnone]
  unfold trimSpace
  simp only [hstart, hend, List.reverse_reverse]

theorem hexOf_inj {d d' : Bytes} (h : validDigest d = true) (h' : validDigest d' = true)
    (heq : Store.hexOf d = Store.hexOf d') : d = d' := by
  obtain ⟨hex, rfl, htrim, -⟩ := validDigest_hex h
  obtain ⟨hex', rfl, htrim', -⟩ := validDigest_hex h'
  rw [Store.hexOf, Store.hexOf, htrim, htrim'] at heq
  rw [heq]

theorem hexOf_plain {d : Bytes} (h : validDigest d = true) : Plain (Store.hexOf d) := by
  obtain ⟨hex, -, htrim, hplain⟩ := validDigest_hex h
  rw [Store.hexOf, htrim]
  exact hplain

theorem isHex_hexDigit {n : Nat} (h : n < 16) : isHex (JsonText.hexDigit n) = true := by
  have hall : ∀ n < 16, isHex (JsonText.hexDigit n) = true := by decide
  exact hall n h

theorem digestOf_valid (b : Bytes) : validDigest (digestOf b) = true := by
  have hdrop : (digestOf b).drop 7 = hexSum b := rfl
  have hpre : (ascii "sha256:").isPrefixOf (digestOf b) = true :=
    List.isPrefixOf_iff_prefix.mpr (List.prefix_append _ _)
  have hlen : (hexSum b).length = 64 := by
    simp [hexSum, List.length_flatMap, Sha256.sum_length]
  have hhex : (hexSum b).all isHex = true := by
    rw [List.all_eq_true]
    intro c hc
    obtain ⟨x, -, hx⟩ := List.mem_flatMap.mp hc
    simp only [List.mem_cons, List.not_mem_nil, or_false] at hx
    have hx256 := x.toNat_lt
    rcases hx with rfl | rfl
    all_goals exact isHex_hexDigit (by omega)
  unfold validDigest
  rw [hdrop, hpre, hlen, hhex]
  rfl

theorem hexOf_digestOf (b : Bytes) : Store.hexOf (digestOf b) = hexSum b := rfl

end Digests

def TagsSound (root : Root) (t : Tree) (but : Repo → Bytes → Bytes → Bytes → Prop) : Prop :=
  ∀ r image tag content, validImage image = true → t.node (tagOf root r image tag) = some (.file content) →
    validDigest content = true ∧ (t.node (revisionOf root r image (Store.hexOf content))).isSome ∨ but r image tag content

def noTag : Repo → Bytes → Bytes → Bytes → Prop := fun _ _ _ _ => False

def HasRevision (root : Root) (t : Tree) (r : Repo) (image digest : Bytes) : Prop :=
  (t.node (revisionOf root r image (Store.hexOf digest))).isSome

namespace Thread

def locked : Thread → Bool
  | .call _ | .appending _ _ | .hashing _ _ _ _ | .moving _ _ _ | .reading _ _ _ | .readingTag _ _ _
  | .readingRevision _ _ _ | .checkingBlobs _ _ | .locking _ => false
  | .creatingTemp _ then' | .writingTemp _ then' | .placing _ then' => then'.isSome
  | _ => true

def Pending (root : Root) : Thread → Repo → Bytes → Bytes → Bytes → Prop
  | .writingTag r image tag _, r', image', tag', _ => tagOf root r' image' tag' = tagPath root r image tag
  | .listingTags r image digest, r', image', _, content => r' = r ∧ image' = image ∧ content = digest
  | .readingTags r image digest names naming, r', image', tag', content =>
    (r' = r ∧ image' = image ∧ content = digest) ∧ (tag' ∈ names ∨ tag' ∈ naming)
  | .untagging r image digest naming, r', image', tag', content =>
    (r' = r ∧ image' = image ∧ content = digest) ∧ tag' ∈ naming
  | .removingAll path _ _, r', image', _, _ => path <+: imagePath root r' image'
  | _, _, _, _, _ => False

def Needs (root : Root) (t : Tree) : Thread → Prop
  | .makingTag r image _ digest | .truncatingTag r image _ digest => HasRevision root t r image digest
  | .writingTag r image tag digest =>
    HasRevision root t r image digest ∧ ∃ content, t.node (tagPath root r image tag) = some (.file content)
  | .readingTags _ _ _ names naming => ∀ n, n ∈ names ∨ n ∈ naming → Plain n
  | .untagging _ _ _ naming => ∀ n ∈ naming, Plain n
  | .removingEmpty dir _ => t.node dir = some .dir
  | _ => True

end Thread

def Call.Proper : Call → Prop
  | .setTag _ _ _ digest => validDigest digest = true
  | .delete (.deleteManifest _ image _) => validImage image = true
  | _ => True

def Work.Proper : Work → Prop
  | .push _ => True
  | .setTag _ _ tag digest => validTag tag = true ∧ validDigest digest = true
  | .delete (.deleteTag _ _ tag) => validTag tag = true
  | .delete (.deleteManifest _ image digest) => validImage image = true ∧ validDigest digest = true
  | .delete (.deleteImage _ image) => validImage image = true
  | .delete (.deleteRepository _) => True

def Thread.Sound : Thread → Prop
  | .call c => c.Proper
  | .locking w => w.Proper
  | .statingRevision _ _ tag digest | .makingTag _ _ tag digest | .truncatingTag _ _ tag digest
  | .writingTag _ _ tag digest => validTag tag = true ∧ validDigest digest = true
  | .removingTag _ _ tag => validTag tag = true
  | .removingRevision _ image digest | .listingTags _ image digest | .readingTags _ image digest _ _
  | .untagging _ image digest _ | .countingRevisions _ image digest => validImage image = true ∧ validDigest digest = true
  | .statingImage _ image => validImage image = true
  | .removingAll path _ _ => manifestsDir ∉ path
  | _ => True

structure Phase (root : Root) (tree : Tree) (t : Thread) : Prop where
  laid : Laid root tree
  tags : TagsSound root tree (t.Pending root)
  needs : t.Needs root tree

def tagGuard (root : Root) : Guard Store Thread where
  taken s := s.lock
  holds t := t.locked
  free s := Laid root s.tree ∧ TagsSound root s.tree noTag
  held s t := Phase root s.tree t
  sound t := t.Sound

end CloudBurrow.Registry
