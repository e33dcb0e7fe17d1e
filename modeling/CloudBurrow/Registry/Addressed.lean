import CloudBurrow.Registry.TagSteps

namespace CloudBurrow.Registry

open Utf8 FileTree Threads

structure Addressed (s : Store) : Prop where
  named : ∀ hex n, s.blobs hex = some n → n ∈ s.stored ∧ ∃ c, s.inodes[n]? = some c ∧ hexSum c = hex
  stored : ∀ n ∈ s.stored, n < s.inodes.length
  uploads : ∀ id n, s.uploads id = some n → n < s.inodes.length ∧ n ∉ s.stored ∧ id ∈ s.drawn
  single : ∀ id id' n, s.uploads id = some n → s.uploads id' = some n → id = id'
  reads : ∀ d b, (d, b) ∈ s.reads → digestOf b = d

namespace Thread

def finishes (n : Nat) : Thread → Bool
  | .hashing _ _ m _ | .moving _ _ m => m = n
  | _ => false

def file : Thread → Option Nat
  | .hashing _ _ n _ | .moving _ _ n | .reading _ n _ => some n
  | _ => none

def Opened (s : Store) : Thread → Prop
  | .hashing id digest n got => id ∈ s.drawn ∧ (s.uploads id = some n ∨ s.uploads id = none) ∧
      validDigest digest = true ∧ ∃ c, s.inodes[n]? = some c ∧ got <+: c
  | .moving id digest n => id ∈ s.drawn ∧ (s.uploads id = some n ∨ s.uploads id = none) ∧
      ∃ c, s.inodes[n]? = some c ∧ digestOf c = digest
  | .reading digest n got => n ∈ s.stored ∧ ∃ c, s.inodes[n]? = some c ∧ digestOf c = digest ∧ got <+: c
  | _ => True

def clear (input : Input) (s : Store) (threads : List Thread) : Thread → Bool
  | .call .startUpload => Store.validUploadID input.id && input.id ∉ s.drawn
  | .appending n (_ :: _) => n ∉ s.stored && threads.all fun t => !t.finishes n
  | _ => true

end Thread

def Orderly : Move Thread Input → Sys Store Thread → Prop
  | .enter t, _ => ∃ c, t = .call c ∧ c.Proper
  | .step i input, s => ∀ t ∈ s.threads[i]?, t.clear input s.shared s.threads = true

section Frames

variable {s s' : Store} {t : Thread}

theorem Thread.Opened.frame (h : t.Opened s)
    (hfile : ∀ n, t.file = some n → ∀ c, s.inodes[n]? = some c → s'.inodes[n]? = some c)
    (hup : ∀ id ∈ s.drawn, s'.uploads id = s.uploads id ∨ s'.uploads id = none)
    (hdrawn : ∀ id ∈ s.drawn, id ∈ s'.drawn) (hstored : ∀ n ∈ s.stored, n ∈ s'.stored) : t.Opened s' := by
  have hupload : ∀ id n, id ∈ s.drawn → s.uploads id = some n ∨ s.uploads id = none →
      s'.uploads id = some n ∨ s'.uploads id = none := by
    intro id n hid hold
    rcases hup id hid with heq | hnone
    · rw [heq]
      exact hold
    · exact .inr hnone
  cases t with
  | hashing id digest n got =>
    obtain ⟨hid, hold, hdigest, c, hc, hgot⟩ := h
    exact ⟨hdrawn id hid, hupload id n hid hold, hdigest, c, hfile n rfl c hc, hgot⟩
  | moving id digest n =>
    obtain ⟨hid, hold, c, hc, hsum⟩ := h
    exact ⟨hdrawn id hid, hupload id n hid hold, c, hfile n rfl c hc, hsum⟩
  | reading digest n got =>
    obtain ⟨hn, c, hc, hsum, hgot⟩ := h
    exact ⟨hstored n hn, c, hfile n rfl c hc, hsum, hgot⟩
  | _ => trivial

structure Same (s s' : Store) : Prop where
  inodes : s'.inodes = s.inodes
  uploads : s'.uploads = s.uploads
  blobs : s'.blobs = s.blobs
  drawn : s'.drawn = s.drawn
  stored : s'.stored = s.stored
  reads : s'.reads = s.reads

theorem Same.refl (s : Store) : Same s s := ⟨rfl, rfl, rfl, rfl, rfl, rfl⟩

theorem Same.addressed (h : Same s s') (hs : Addressed s) : Addressed s' := by
  obtain ⟨hin, hup, hbl, hdr, hst, hre⟩ := h
  constructor
  · rw [hin, hbl, hst]
    exact hs.named
  · rw [hin, hst]
    exact hs.stored
  · rw [hin, hup, hst, hdr]
    exact hs.uploads
  · rw [hup]
    exact hs.single
  · rw [hre]
    exact hs.reads

theorem Same.opened (h : Same s s') (ht : t.Opened s) : t.Opened s' := by
  refine ht.frame (fun n _ c hc => h.inodes ▸ hc) (fun id _ => .inl (congrFun h.uploads id)) (fun id hid => ?_) fun n hn => ?_
  · rw [h.drawn]
    exact hid
  · rw [h.stored]
    exact hn

structure Keeps (s : Store) (others : List Thread) (after : List Thread × Store) : Prop where
  addressed : Addressed after.2
  opened : ∀ t ∈ after.1, t.Opened after.2
  others : ∀ t ∈ others, t.Opened after.2

variable {others : List Thread} {ts : List Thread}

theorem keeps_same (hs : Addressed s) (hothers : ∀ t ∈ others, t.Opened s) (hsame : Same s s')
    (hts : ∀ t ∈ ts, t.Opened s) : Keeps s others (ts, s') :=
  ⟨hsame.addressed hs, fun t ht => hsame.opened (hts t ht), fun t ht => hsame.opened (hothers t ht)⟩

theorem keeps_quiet (hs : Addressed s) (hothers : ∀ t ∈ others, t.Opened s) (hsame : Same s s')
    (ht : t.Opened s) : Keeps s others ([t], s') :=
  keeps_same hs hothers hsame fun _ ht' => List.mem_singleton.mp ht' ▸ ht

theorem keeps_end (hs : Addressed s) (hothers : ∀ t ∈ others, t.Opened s) (hsame : Same s s') :
    Keeps s others ([], s') :=
  keeps_same hs hothers hsame fun _ ht => absurd ht List.not_mem_nil

theorem keeps_ite {c : Prop} [Decidable c] {a b : List Thread × Store} (ha : c → Keeps s others a)
    (hb : ¬ c → Keeps s others b) : Keeps s others (if c then a else b) := by
  split_ifs with hc
  · exact ha hc
  · exact hb hc

theorem keeps_edits {result : Option Tree} (hs : Addressed s) (hothers : ∀ t ∈ others, t.Opened s)
    (ht : t.Opened s) : Keeps s others (s.edits result t) := by
  cases result with
  | none => exact keeps_quiet (t := .unlocking) hs hothers (Same.refl s) trivial
  | some tree => exact keeps_quiet hs hothers ⟨rfl, rfl, rfl, rfl, rfl, rfl⟩ ht

end Frames

theorem update_eq_some {f : Bytes → Option Nat} {a b : Bytes} {v : Option Nat} {n : Nat}
    (h : Function.update f a v b = some n) : b = a ∧ v = some n ∨ b ≠ a ∧ f b = some n := by
  rw [Function.update_apply] at h
  split_ifs at h with heq
  · exact .inl ⟨heq, h⟩
  · exact .inr ⟨heq, h⟩

theorem update_none (f : Bytes → Option Nat) (a b : Bytes) :
    Function.update f a none b = f b ∨ Function.update f a none b = none := by
  rw [Function.update_apply]
  split_ifs
  · exact .inr rfl
  · exact .inl rfl

theorem getElem?_append_of_some {files : List Bytes} {n : Nat} {c : Bytes} (h : files[n]? = some c) (new : Bytes) :
    (files ++ [new])[n]? = some c := by
  rw [List.getElem?_append_left (List.getElem?_eq_some_iff.mp h).1, h]

section Files

variable {s : Store} {others : List Thread} (hs : Addressed s) (hothers : ∀ t ∈ others, t.Opened s)

include hs hothers

theorem create_keeps {id : Bytes} (hfresh : id ∉ s.drawn) : Keeps s others ([], s.create id) := by
  have hup : ∀ id' ∈ s.drawn, (s.create id).uploads id' = s.uploads id' := by
    intro id' hid'
    have hne : id' ≠ id := fun heq => hfresh (heq ▸ hid')
    exact Function.update_of_ne hne _ _
  have hcases : ∀ id' n, (s.create id).uploads id' = some n →
      id' = id ∧ n = s.inodes.length ∨ id' ≠ id ∧ s.uploads id' = some n := by
    intro id' n hn
    rcases update_eq_some hn with ⟨heq, hself⟩ | hold
    · exact .inl ⟨heq, (Option.some.inj hself).symm⟩
    · exact .inr hold
  refine ⟨⟨?_, ?_, ?_, ?_, hs.reads⟩, fun _ ht => absurd ht List.not_mem_nil, fun t ht => ?_⟩
  · intro hex n hn
    obtain ⟨hstored, c, hc, hsum⟩ := hs.named hex n hn
    exact ⟨hstored, c, getElem?_append_of_some hc _, hsum⟩
  · intro n hn
    exact lt_of_lt_of_le (hs.stored n hn) (by simp [Store.create])
  · intro id' n hn
    rcases hcases id' n hn with ⟨rfl, rfl⟩ | ⟨-, hn⟩
    · exact ⟨by simp [Store.create], fun hmem => absurd (hs.stored _ hmem) (lt_irrefl _), by simp [Store.create]⟩
    · obtain ⟨hlt, hnot, hdrawn⟩ := hs.uploads id' n hn
      exact ⟨lt_of_lt_of_le hlt (by simp [Store.create]), hnot, List.mem_append_left _ hdrawn⟩
  · intro id₁ id₂ n h₁ h₂
    rcases hcases id₁ n h₁ with ⟨rfl, rfl⟩ | ⟨-, hold₁⟩
    · rcases hcases id₂ _ h₂ with ⟨rfl, -⟩ | ⟨-, hold₂⟩
      · rfl
      · exact absurd (hs.uploads _ _ hold₂).1 (lt_irrefl _)
    · rcases hcases id₂ n h₂ with ⟨rfl, rfl⟩ | ⟨-, hold₂⟩
      · exact absurd (hs.uploads _ _ hold₁).1 (lt_irrefl _)
      · exact hs.single id₁ id₂ n hold₁ hold₂
  · exact (hothers t ht).frame (fun n _ c hc => getElem?_append_of_some hc _) (fun id' hid' => .inl (hup id' hid'))
      (fun id' hid' => List.mem_append_left _ hid') fun n hn => hn

theorem start_keeps {id : Bytes} (hfresh : id ∉ s.drawn) : Keeps s others ([], s.start id) := by
  have hnone : s.uploads id = none := by
    rw [Option.eq_none_iff_forall_ne_some]
    exact fun n hn => hfresh (hs.uploads id n hn).2.2
  simp only [Store.start, hnone]
  exact create_keeps hs hothers hfresh

theorem append_keeps {n : Nat} {chunk : Bytes} {rest : List Bytes} (hstored : n ∉ s.stored)
    (hfinish : ∀ t ∈ others, t.finishes n = false) : Keeps s others ([.appending n rest], s.append n chunk) := by
  have hother : ∀ m, m ≠ n → (s.append n chunk).inodes[m]? = s.inodes[m]? := fun m hne => by
    simp [Store.append, hne.symm]
  have hlength : (s.append n chunk).inodes.length = s.inodes.length := by simp [Store.append]
  refine ⟨⟨?_, ?_, ?_, hs.single, hs.reads⟩, fun t ht => ?_, fun t ht => ?_⟩
  · intro hex m hm
    obtain ⟨hmem, c, hc, hsum⟩ := hs.named hex m hm
    exact ⟨hmem, c, (hother m fun heq => hstored (heq ▸ hmem)).trans hc, hsum⟩
  · intro m hm
    rw [hlength]
    exact hs.stored m hm
  · intro id m hm
    rw [hlength]
    exact hs.uploads id m hm
  · rw [List.mem_singleton.mp ht]
    trivial
  · refine (hothers t ht).frame (fun m hm c hc => (hother m ?_).trans hc) (fun _ _ => .inl rfl) (fun _ h => h) fun _ h => h
    rintro rfl
    have hclear := hfinish t ht
    cases t with
    | hashing id digest k got | moving id digest k =>
      obtain rfl : k = m := Option.some.inj hm
      simp [Thread.finishes] at hclear
    | reading digest k got =>
      obtain rfl : k = m := Option.some.inj hm
      exact hstored (hothers _ ht).1
    | _ => cases hm

theorem place_keeps {b : Bytes} {ts : List Thread} (hts : ∀ t ∈ ts, t.file = none) : Keeps s others (ts, s.place b) := by
  have hnew : (s.inodes ++ [b])[s.inodes.length]? = some b := by simp
  refine ⟨⟨?_, ?_, ?_, hs.single, hs.reads⟩, fun t ht => ?_, fun t ht => ?_⟩
  · intro hex n hn
    rcases update_eq_some hn with ⟨rfl, hself⟩ | ⟨-, hbefore⟩
    · obtain rfl := Option.some.inj hself
      exact ⟨List.mem_append_right _ List.mem_cons_self, b, hnew, rfl⟩
    · obtain ⟨hmem, c, hc, hsum⟩ := hs.named hex n hbefore
      exact ⟨List.mem_append_left _ hmem, c, getElem?_append_of_some hc b, hsum⟩
  · intro n hn
    change n < (s.inodes ++ [b]).length
    rw [List.length_append, List.length_singleton]
    rcases List.mem_append.mp hn with hn | hn
    · have hlt := hs.stored n hn
      omega
    · rw [List.mem_singleton.mp hn]
      omega
  · intro id n hn
    obtain ⟨hlt, hnot, hdrawn⟩ := hs.uploads id n hn
    refine ⟨lt_of_lt_of_le hlt (by simp [Store.place]), fun hmem => ?_, hdrawn⟩
    rcases List.mem_append.mp hmem with hmem | hmem
    · exact hnot hmem
    · rw [List.mem_singleton.mp hmem] at hlt
      exact lt_irrefl _ hlt
  · have hnone := hts t ht
    cases t with
    | hashing id digest k got | moving id digest k | reading digest k got => cases hnone
    | _ => trivial
  · exact (hothers t ht).frame (fun n _ c hc => getElem?_append_of_some hc b) (fun _ _ => .inl rfl) (fun _ h => h)
      fun n hn => List.mem_append_left _ hn

theorem finish_keeps {id digest : Bytes} {n : Nat} (hup : s.uploads id = some n) {c : Bytes}
    (hc : s.inodes[n]? = some c) (hsum : digestOf c = digest) : Keeps s others ([], s.finish id digest n) := by
  have hup' : ∀ id' m, (s.finish id digest n).uploads id' = some m → id' ≠ id ∧ s.uploads id' = some m := by
    intro id' m hm
    rcases update_eq_some hm with ⟨-, hself⟩ | hold
    · cases hself
    · exact hold
  refine ⟨⟨?_, ?_, ?_, ?_, hs.reads⟩, fun _ ht => absurd ht List.not_mem_nil, fun t ht => ?_⟩
  · intro hex m hm
    rcases update_eq_some hm with ⟨rfl, hself⟩ | ⟨-, hbefore⟩
    · obtain rfl := Option.some.inj hself
      exact ⟨List.mem_append_right _ List.mem_cons_self, c, hc, by rw [← hsum, hexOf_digestOf]⟩
    · obtain ⟨hmem, c', hc', hsum'⟩ := hs.named hex m hbefore
      exact ⟨List.mem_append_left _ hmem, c', hc', hsum'⟩
  · intro m hm
    rcases List.mem_append.mp hm with hm | hm
    · exact hs.stored m hm
    · rw [List.mem_singleton.mp hm]
      exact (hs.uploads id n hup).1
  · intro id' m hm
    obtain ⟨hne, hm⟩ := hup' id' m hm
    obtain ⟨hlt, hnot, hdrawn⟩ := hs.uploads id' m hm
    refine ⟨hlt, fun hmem => ?_, hdrawn⟩
    rcases List.mem_append.mp hmem with hmem | hmem
    · exact hnot hmem
    · rw [List.mem_singleton.mp hmem] at hm
      exact hne (hs.single id' id n hm hup)
  · intro id₁ id₂ m h₁ h₂
    exact hs.single id₁ id₂ m (hup' id₁ m h₁).2 (hup' id₂ m h₂).2
  · exact (hothers t ht).frame (fun _ _ _ hc => hc) (fun id' _ => update_none s.uploads id id') (fun _ h => h)
      fun m hm => List.mem_append_left _ hm

theorem forget_keeps (id : Bytes) : Keeps s others ([], s.forget id) := by
  have hup : ∀ id' m, (s.forget id).uploads id' = some m → s.uploads id' = some m := by
    intro id' m hm
    rcases update_eq_some hm with ⟨-, hself⟩ | ⟨-, hold⟩
    · cases hself
    · exact hold
  refine ⟨⟨hs.named, hs.stored, fun id' m hm => hs.uploads id' m (hup id' m hm),
    fun id₁ id₂ m h₁ h₂ => hs.single id₁ id₂ m (hup id₁ m h₁) (hup id₂ m h₂), hs.reads⟩,
    fun _ ht => absurd ht List.not_mem_nil, fun t ht => ?_⟩
  exact (hothers t ht).frame (fun _ _ _ hc => hc) (fun id' _ => update_none s.uploads id id') (fun _ h => h) fun _ h => h

theorem drop_keeps (digest : Bytes) : Keeps s others ([], s.drop digest) := by
  refine ⟨⟨fun hex n hn => ?_, hs.stored, hs.uploads, hs.single, hs.reads⟩,
    fun _ ht => absurd ht List.not_mem_nil, fun t ht => ?_⟩
  · rcases update_eq_some hn with ⟨-, hself⟩ | ⟨-, hold⟩
    · cases hself
    · exact hs.named hex n hold
  · exact (hothers t ht).frame (fun _ _ _ hc => hc) (fun _ _ => .inl rfl) (fun _ h => h) fun _ h => h

theorem answer_keeps {digest got : Bytes} (hsum : digestOf got = digest) : Keeps s others ([], s.answer digest got) := by
  refine ⟨⟨hs.named, hs.stored, hs.uploads, hs.single, fun d b hmem => ?_⟩,
    fun _ ht => absurd ht List.not_mem_nil, fun t ht => ?_⟩
  · rcases List.mem_append.mp hmem with hmem | hmem
    · exact hs.reads d b hmem
    · obtain ⟨rfl, rfl⟩ := Prod.mk.inj (List.mem_singleton.mp hmem)
      exact hsum
  · exact (hothers t ht).frame (fun _ _ _ hc => hc) (fun _ _ => .inl rfl) (fun _ h => h) fun _ h => h

end Files

section Steps

variable {unmarshal : Bytes → Option ManifestDoc} {root : Root} {s : Store} {others : List Thread}

theorem chunk_prefix {n : Nat} {c got : Bytes} (hc : s.inodes[n]? = some c) (hgot : got <+: c) (size : Nat) :
    (s.chunk n got size ≠ [] → got ++ s.chunk n got size <+: c) ∧ (s.chunk n got size = [] → got = c) := by
  obtain ⟨more, rfl⟩ := hgot
  have hchunk : s.chunk n got size = more.take (size + 1) := by
    unfold Store.chunk
    rw [List.getD_eq_getElem?_getD, hc, Option.getD_some, List.drop_left]
  rw [hchunk]
  constructor
  · intro _
    rw [List.prefix_append_right_inj]
    exact List.take_prefix _ _
  · intro hnil
    rw [List.take_eq_nil_iff] at hnil
    rw [hnil.resolve_left (Nat.succ_ne_zero size), List.append_nil]

theorem begin_keeps (hs : Addressed s) (hothers : ∀ t ∈ others, t.Opened s) {input : Input} {c : Call}
    (hfresh : c = .startUpload → input.id ∉ s.drawn) : Keeps s others (s.begin unmarshal input c) := by
  have hend := keeps_end hs hothers (Same.refl s)
  have hquiet : ∀ t : Thread, t.Opened s → Keeps s others ([t], s) := fun t ht => keeps_quiet hs hothers (Same.refl s) ht
  cases c with
  | startUpload => exact start_keeps hs hothers (hfresh rfl)
  | appendUpload id chunks =>
    refine keeps_ite (fun _ => hend) fun _ => ?_
    split
    · exact hend
    · exact hquiet _ trivial
  | finishUpload id digest =>
    refine keeps_ite (fun _ => hend) fun hbad => ?_
    split
    · exact hend
    · rename_i n hn
      obtain ⟨hlt, -, hdrawn⟩ := hs.uploads id n hn
      simp only [Bool.or_eq_true, Bool.not_eq_true', not_or, Bool.not_eq_false] at hbad
      exact hquiet _ ⟨hdrawn, .inl hn, hbad.2, _, List.getElem?_eq_getElem hlt, List.nil_prefix⟩
  | cancelUpload id => exact keeps_ite (fun _ => hend) fun _ => forget_keeps hs hothers id
  | putBlob b | setTag r image tag digest => exact keeps_ite (fun _ => hend) fun _ => hquiet _ trivial
  | deleteBlob digest => exact keeps_ite (fun _ => hend) fun _ => drop_keeps hs hothers digest
  | readBlob digest =>
    refine keeps_ite (fun _ => hend) fun hbad => ?_
    split
    · exact hend
    · rename_i n hn
      obtain ⟨hmem, c, hc, hsum⟩ := hs.named _ n hn
      have hdigest : validDigest digest = true := by simpa using hbad
      have hname : digestOf c = digest := hexOf_inj (digestOf_valid c) hdigest (by rw [hexOf_digestOf, hsum])
      exact hquiet _ ⟨hmem, c, hc, hname, List.nil_prefix⟩
  | putManifest r image ref contentType b =>
    simp only [Store.begin]
    split
    · exact hend
    · exact hquiet _ trivial
  | getManifest r image ref =>
    exact keeps_ite (fun _ => hend) fun _ => keeps_ite (fun _ => hquiet _ trivial) fun _ =>
      keeps_ite (fun _ => hquiet _ trivial) fun _ => hend
  | delete d =>
    cases d with
    | deleteTag r image tag | deleteManifest r image digest | deleteImage r image =>
      exact keeps_ite (fun _ => hend) fun _ => hquiet _ trivial
    | deleteRepository r => exact hquiet _ trivial

theorem first_opened (w : Work) : (Store.first root w).Opened s := by
  cases w with
  | push p => trivial
  | setTag r image tag digest => trivial
  | delete d => cases d <;> trivial

variable (hs : Addressed s) (hothers : ∀ u ∈ others, u.Opened s) {input : Input}

include hs hothers

theorem hashing_keeps {id digest got : Bytes} {n : Nat} (ht : (Thread.hashing id digest n got).Opened s) :
    Keeps s others (Store.advance unmarshal root input (.hashing id digest n got) s) := by
  obtain ⟨hid, hup, hdigest, c, hc, hgot⟩ := ht
  obtain ⟨hmore, hall⟩ := chunk_prefix hc hgot input.size
  refine keeps_ite (fun hchunk => ?_) fun hchunk => keeps_ite (fun hsum => ?_) fun _ => keeps_end hs hothers (Same.refl s)
  · exact keeps_quiet hs hothers (Same.refl s) ⟨hid, hup, hdigest, c, hc, hmore hchunk⟩
  · exact keeps_quiet hs hothers (Same.refl s) ⟨hid, hup, c, hc, hall (not_not.mp hchunk) ▸ hsum⟩

theorem moving_keeps {id digest : Bytes} {n : Nat} (ht : (Thread.moving id digest n).Opened s) :
    Keeps s others (Store.advance unmarshal root input (.moving id digest n) s) := by
  obtain ⟨hid, hup, c, hc, hsum⟩ := ht
  simp only [Store.advance]
  split
  · exact keeps_end hs hothers (Same.refl s)
  · rename_i m hm
    have hsame : m = n := by
      rcases hup with hup | hup
      · exact Option.some.inj (hm.symm.trans hup)
      · rw [hup] at hm
        cases hm
    subst hsame
    exact finish_keeps hs hothers hm hc hsum

theorem placing_keeps {b : Bytes} {then' : Option Push} :
    Keeps s others (Store.advance unmarshal root input (.placing b then') s) := by
  cases then' with
  | none => exact place_keeps hs hothers fun _ hu => absurd hu List.not_mem_nil
  | some p =>
    refine place_keeps hs hothers fun u hu => ?_
    rw [List.mem_singleton.mp hu]
    rfl

theorem reading_keeps {digest got : Bytes} {n : Nat} (ht : (Thread.reading digest n got).Opened s) :
    Keeps s others (Store.advance unmarshal root input (.reading digest n got) s) := by
  obtain ⟨hn, c, hc, hsum, hgot⟩ := ht
  obtain ⟨hmore, hall⟩ := chunk_prefix hc hgot input.size
  refine keeps_ite (fun hchunk => ?_) fun hchunk => ?_
  · exact keeps_quiet hs hothers (Same.refl s) ⟨hn, c, hc, hsum, hmore hchunk⟩
  · exact answer_keeps hs hothers (hall (not_not.mp hchunk) ▸ hsum)

theorem advance_keeps {t : Thread} {all : List Thread} (ht : t.Opened s) (hmem : ∀ u ∈ others, u ∈ all)
    (hclear : t.clear input s all = true) : Keeps s others (Store.advance unmarshal root input t s) := by
  have hend := keeps_end hs hothers (Same.refl s)
  have hquiet : ∀ u : Thread, u.Opened s → Keeps s others ([u], s) := fun u hu => keeps_quiet hs hothers (Same.refl s) hu
  have htree : ∀ (u : Thread) tree, u.Opened s → Keeps s others ([u], { s with tree }) :=
    fun u tree hu => keeps_quiet hs hothers ⟨rfl, rfl, rfl, rfl, rfl, rfl⟩ hu
  cases t with
  | call c =>
    refine begin_keeps hs hothers fun heq => ?_
    subst heq
    exact of_decide_eq_true (Bool.and_eq_true_iff.mp hclear).2
  | appending n chunks =>
    cases chunks with
    | nil => exact hend
    | cons chunk rest =>
      obtain ⟨hstored, hfinish⟩ := Bool.and_eq_true_iff.mp hclear
      refine append_keeps hs hothers (of_decide_eq_true hstored) fun u hu => ?_
      simpa using List.all_eq_true.mp hfinish u (hmem u hu)
  | hashing id digest n got => exact hashing_keeps hs hothers ht
  | moving id digest n => exact moving_keeps hs hothers ht
  | creatingTemp b then' | writingTemp b then' => exact hquiet _ trivial
  | placing b then' => exact placing_keeps hs hothers
  | reading digest n got => exact reading_keeps hs hothers ht
  | readingTag r image tag | readingRevision r image digest =>
    simp only [Store.advance]
    split
    · exact hquiet _ trivial
    · exact hend
  | checkingBlobs digests p =>
    cases digests with
    | nil => exact hquiet _ trivial
    | cons d rest => exact keeps_ite (fun _ => hquiet _ trivial) fun _ => hend
  | locking w =>
    exact keeps_ite (fun _ => hquiet _ trivial) fun _ =>
      keeps_quiet hs hothers ⟨rfl, rfl, rfl, rfl, rfl, rfl⟩ (first_opened w)
  | checkingManifests digests p =>
    cases digests with
    | nil => exact hquiet _ trivial
    | cons d rest => exact keeps_ite (fun _ => hquiet _ trivial) fun _ => hquiet _ trivial
  | storing p | statingRevision r image tag digest | listingTags r image digest
  | countingRevisions r image digest | statingImage r image | pruning dir stop =>
    exact keeps_ite (fun _ => hquiet _ trivial) fun _ => hquiet _ trivial
  | makingRevision p | truncatingRevision p | makingTag r image tag digest | truncatingTag r image tag digest
  | writingTag r image tag digest | removingTag r image tag | removingRevision r image digest =>
    exact keeps_edits hs hothers trivial
  | writingRevision p =>
    refine keeps_edits hs hothers ?_
    cases p.tag with
    | none => trivial
    | some tag => trivial
  | readingTags r image digest names naming =>
    cases names with
    | nil => exact hquiet _ trivial
    | cons name rest =>
      simp only [Store.advance]
      split
      all_goals exact hquiet _ trivial
  | untagging r image digest naming =>
    cases naming with
    | nil => exact hquiet _ trivial
    | cons tag rest => exact htree _ _ trivial
  | removingAll path dir stop =>
    exact keeps_ite (fun _ => keeps_ite (fun _ => htree _ _ trivial) fun _ => hquiet _ trivial) fun _ => hquiet _ trivial
  | removingEmpty dir stop => exact htree _ _ trivial
  | unlocking => exact keeps_end hs hothers ⟨rfl, rfl, rfl, rfl, rfl, rfl⟩

end Steps

structure ContentAddressed (root : Root) (s : Sys Store Thread) : Prop where
  blobs : ∀ hex n, s.shared.blobs hex = some n → ∃ c, s.shared.inodes[n]? = some c ∧ hexSum c = hex
  reads : ∀ d b, (d, b) ∈ s.shared.reads → digestOf b = d
  tags : (∀ t ∈ s.threads, t.locked = false) → ∀ r image tag content, validImage image = true →
    s.shared.tree.node (tagOf root r image tag) = some (.file content) →
    validDigest content = true ∧ HasRevision root s.shared.tree r image content

theorem tags_kept (unmarshal : Bytes → Option ManifestDoc) (root : Root) {ms : List (Move Thread Input)}
    (h : (program unmarshal root).Along Orderly ms ⟨Store.empty, []⟩) :
    (tagGuard root).Kept ((program unmarshal root).run ms ⟨Store.empty, []⟩).shared
      ((program unmarshal root).run ms ⟨Store.empty, []⟩).threads := by
  refine Guard.kept_of_run (fun s t hok => ?_) (fun s i input left t right hok _ hsound hheld => ?_) h ?_
    fun t ht => absurd ht List.not_mem_nil
  · obtain ⟨c, rfl, hc⟩ := hok
    exact ⟨rfl, hc⟩
  · exact advance_moves unmarshal input hsound hheld
  · refine .free rfl ⟨laid_nil root, fun r image tag content _ hnode => ?_⟩ rfl
    cases hnode

theorem blobs_kept (unmarshal : Bytes → Option ManifestDoc) (root : Root) {ms : List (Move Thread Input)}
    (h : (program unmarshal root).Along Orderly ms ⟨Store.empty, []⟩) :
    Addressed ((program unmarshal root).run ms ⟨Store.empty, []⟩).shared := by
  have hempty : Addressed Store.empty := ⟨nofun, nofun, nofun, nofun, nofun⟩
  refine (Program.each (P := fun s t => t.Opened s) (fun s t hok _ => ?_)
    (fun s i input left t right hok hget hs ht hothers => ?_) h hempty fun t ht => absurd ht List.not_mem_nil).1
  · obtain ⟨c, rfl, -⟩ := hok
    trivial
  · have hkeeps : Keeps s (left ++ right) (Store.advance unmarshal root input t s) :=
      advance_keeps hs hothers ht (fun u => Program.mem_kept) (hok t hget)
    exact ⟨hkeeps.addressed, hkeeps.opened, hkeeps.others⟩

theorem registry_content_addressed (unmarshal : Bytes → Option ManifestDoc) (root : Root) {ms : List (Move Thread Input)}
    (h : (program unmarshal root).Along Orderly ms ⟨Store.empty, []⟩) :
    ContentAddressed root ((program unmarshal root).run ms ⟨Store.empty, []⟩) := by
  have hblobs := blobs_kept unmarshal root h
  refine ⟨fun hex n hn => (hblobs.named hex n hn).2, hblobs.reads, fun hnone r image tag content himage hnode => ?_⟩
  cases tags_kept unmarshal root h with
  | free htaken hfree hls => exact (hfree.2 r image tag content himage hnode).resolve_right id
  | held t htaken hheld hls =>
    have hmem : t ∈ ((program unmarshal root).run ms ⟨Store.empty, []⟩).threads.filter (tagGuard root).holds :=
      hls ▸ List.mem_singleton_self t
    obtain ⟨hthere, hlocked⟩ := List.mem_filter.mp hmem
    rw [show (tagGuard root).holds t = false from hnone t hthere] at hlocked
    cases hlocked

section Runs

def Thread.asCall : Thread → Option Call
  | .call c => some c
  | _ => none

theorem Thread.asCall_iff {t : Thread} {good : Call → Prop} :
    (∃ c ∈ t.asCall, good c) ↔ ∃ c, t = .call c ∧ good c := by
  cases t <;> simp [Thread.asCall]

instance : ∀ c : Call, Decidable c.Proper
  | .setTag _ _ _ digest => inferInstanceAs (Decidable (validDigest digest = true))
  | .delete (.deleteManifest _ image _) => inferInstanceAs (Decidable (validImage image = true))
  | .delete (.deleteTag _ _ _) | .delete (.deleteImage _ _) | .delete (.deleteRepository _)
  | .startUpload | .appendUpload _ _ | .finishUpload _ _ | .cancelUpload _ | .putBlob _ | .deleteBlob _ | .readBlob _
  | .putManifest _ _ _ _ _ | .getManifest _ _ _ => .isTrue trivial

instance instDecidableOrderly : ∀ m s, Decidable (Orderly m s)
  | .enter _, _ => decidable_of_iff _ Thread.asCall_iff
  | .step i input, s => inferInstanceAs (Decidable (∀ t ∈ s.threads[i]?, t.clear input s.shared s.threads = true))

def sampleIndex : Bytes := ascii "\x7b\"schemaVersion\":2,\"manifests\":[]\x7d"

def sampleUnmarshal (b : Bytes) : Option ManifestDoc :=
  if b = sampleIndex then some ⟨2, [], none, [], some []⟩ else none

def sampleID : Bytes := List.replicate 32 97

def stepsOf (i n : Nat) : List (Move Thread Input) := List.replicate n (.step i ⟨sampleID, 3, []⟩)

def serve (c : Call) (n : Nat) : List (Move Thread Input) := .enter (.call c) :: stepsOf 0 n

def pushed : List (Move Thread Input) := serve (.putManifest sampleRepo (ascii "a") (ascii "v") [] sampleIndex) 15

def pushedRun : List (Move Thread Input) :=
  serve .startUpload 1 ++ pushed ++ serve (.appendUpload sampleID [ascii "layer"]) 3 ++
  serve (.finishUpload sampleID (digestOf (ascii "layer"))) 5 ++ serve (.readBlob (digestOf (ascii "layer"))) 4 ++
  serve (.getManifest sampleRepo (ascii "a") (ascii "v")) 20

theorem pushedRun_addressed : (program sampleUnmarshal sampleRoot).Along Orderly pushedRun ⟨Store.empty, []⟩ ∧
    ContentAddressed sampleRoot ((program sampleUnmarshal sampleRoot).run pushedRun ⟨Store.empty, []⟩) ∧
    ((program sampleUnmarshal sampleRoot).run pushedRun ⟨Store.empty, []⟩).shared.reads =
      [(digestOf (ascii "layer"), ascii "layer"), (digestOf sampleIndex, sampleIndex)] := by
  have horderly : (program sampleUnmarshal sampleRoot).Along Orderly pushedRun ⟨Store.empty, []⟩ := by decide +kernel
  exact ⟨horderly, registry_content_addressed sampleUnmarshal sampleRoot horderly, by decide +kernel⟩

def lateAppend : List (Move Thread Input) :=
  serve .startUpload 1 ++ serve (.appendUpload sampleID [ascii "x"]) 1 ++ serve (.finishUpload sampleID (digestOf [])) 2 ++
  stepsOf 1 1 ++ stepsOf 0 1

def emptyTag : List (Move Thread Input) := pushed ++ serve (.setTag sampleRepo (ascii "a") (ascii "w") []) 7

theorem blob_or_tag_wrong :
    ¬ ContentAddressed sampleRoot ((program sampleUnmarshal sampleRoot).run lateAppend ⟨Store.empty, []⟩) ∧
    ¬ ContentAddressed sampleRoot ((program sampleUnmarshal sampleRoot).run emptyTag ⟨Store.empty, []⟩) := by
  constructor
  · intro h
    have hblob : ((program sampleUnmarshal sampleRoot).run lateAppend ⟨Store.empty, []⟩).shared.blobs (hexSum []) = some 0 := by
      decide +kernel
    have hcontent : ((program sampleUnmarshal sampleRoot).run lateAppend ⟨Store.empty, []⟩).shared.inodes[0]? =
        some (ascii "x") := by decide +kernel
    obtain ⟨c, hc, hsum⟩ := h.blobs _ _ hblob
    obtain rfl : ascii "x" = c := Option.some.inj (hcontent.symm.trans hc)
    exact absurd hsum (by decide +kernel)
  · intro h
    have hnode : ((program sampleUnmarshal sampleRoot).run emptyTag ⟨Store.empty, []⟩).shared.tree.node
        (tagOf sampleRoot sampleRepo (ascii "a") (ascii "w")) = some (.file []) := by decide +kernel
    have hnone : ((program sampleUnmarshal sampleRoot).run emptyTag ⟨Store.empty, []⟩).threads = [] := by
      have hlength : ((program sampleUnmarshal sampleRoot).run emptyTag ⟨Store.empty, []⟩).threads.length = 0 := by
        decide +kernel
      exact List.length_eq_zero_iff.mp hlength
    have hsound := (h.tags (fun t ht => by rw [hnone] at ht; cases ht) _ _ _ _ (by decide +kernel) hnode).1
    exact absurd hsound (by decide)

end Runs

end CloudBurrow.Registry
