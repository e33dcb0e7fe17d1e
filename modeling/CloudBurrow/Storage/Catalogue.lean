import CloudBurrow.Process.Inventory
import CloudBurrow.Storage.Versions

namespace CloudBurrow.Storage

open Utf8 Inventory

inductive Slot where
  | live | kept | soft
deriving DecidableEq

structure Place where
  slot : Slot
  key : Bytes
deriving DecidableEq

structure Catalogue where
  bucket : Bytes → Option BucketRecord
  stock : Place → Multiset ObjectRecord
  lastGen : Int

structure Proper (key : Bytes) (o : ObjectRecord) : Prop where
  key : objectKey o.bucket o.name = key
  bucket : slash ∉ o.bucket
  recode : o.recode = o

variable {o : ObjectRecord} {now : Time}

theorem Proper.archived {key : Bytes} (h : Proper key o) : Proper key (o.archived now) :=
  ⟨h.key, h.bucket, congrArg (fun x => x.archived now) h.recode⟩

theorem Proper.softened {key : Bytes} (h : Proper key o) {b : BucketRecord} : Proper key (o.softened b now) :=
  ⟨h.key, h.bucket, congrArg (fun x => x.softened b now) h.recode⟩

abbrev FreshIn (stock : Place → Multiset ObjectRecord) (g : Int) : Prop :=
  Unused ObjectRecord.generation stock g

namespace Catalogue

structure Sound (c : Catalogue) : Prop where
  bucket : ∀ name b, c.bucket name = some b → b.name = name
  proper : ∀ p, ∀ o ∈ c.stock p, Proper p.key o
  unique : Unique ObjectRecord.generation c.stock
  bounded : ∀ p, ∀ o ∈ c.stock p, o.generation ≤ c.lastGen

def Guarded (c : Catalogue) (now : Time) (o : ObjectRecord) : Prop :=
  Protected ((c.bucket o.bucket).getD {}) o now

theorem Sound.fresh {c : Catalogue} (h : c.Sound) {g : Int} (hg : c.lastGen < g) : FreshIn c.stock g := by
  intro p o ho heq
  have hle := h.bounded p o ho
  omega

end Catalogue

structure SameGuard (o o' : ObjectRecord) : Prop where
  bucket : o'.bucket = o.bucket
  generation : o'.generation = o.generation
  blob : o'.blob = o.blob
  temporaryHold : o'.temporaryHold = o.temporaryHold
  eventBasedHold : o'.eventBasedHold = o.eventBasedHold
  retention : o'.retention = o.retention
  retentionStart : retentionStart o' = retentionStart o

namespace SameGuard

variable {o o' o'' : ObjectRecord}

theorem refl (o : ObjectRecord) : SameGuard o o := ⟨rfl, rfl, rfl, rfl, rfl, rfl, rfl⟩

theorem trans (h : SameGuard o o') (h' : SameGuard o' o'') : SameGuard o o'' :=
  ⟨h'.bucket.trans h.bucket, h'.generation.trans h.generation, h'.blob.trans h.blob,
    h'.temporaryHold.trans h.temporaryHold, h'.eventBasedHold.trans h.eventBasedHold,
    h'.retention.trans h.retention, h'.retentionStart.trans h.retentionStart⟩

theorem held (h : SameGuard o o') : Held o' ↔ Held o := by
  rw [Held, Held, h.temporaryHold, h.eventBasedHold]

theorem guarded (h : SameGuard o o') (c : Catalogue) (now : Time) : c.Guarded now o' ↔ c.Guarded now o := by
  simp only [Catalogue.Guarded, Protected, Retained, h.held, h.bucket, h.retention, h.retentionStart]

end SameGuard

structure SameVersion (o o' : ObjectRecord) : Prop where
  bucket : o'.bucket = o.bucket
  name : o'.name = o.name
  generation : o'.generation = o.generation
  blob : o'.blob = o.blob

namespace SameVersion

variable {o o' o'' : ObjectRecord}

theorem refl (o : ObjectRecord) : SameVersion o o := ⟨rfl, rfl, rfl, rfl⟩

theorem trans (h : SameVersion o o') (h' : SameVersion o' o'') : SameVersion o o'' :=
  ⟨h'.bucket.trans h.bucket, h'.name.trans h.name, h'.generation.trans h.generation, h'.blob.trans h.blob⟩

theorem proper (h : SameVersion o o') {key : Bytes} (hp : Proper key o) : Proper key o' := by
  have hb := congrArg ObjectRecord.bucket hp.recode
  have hn := congrArg ObjectRecord.name hp.recode
  simp only [ObjectRecord.recode] at hb hn
  refine ⟨?_, ?_, ?_⟩
  · rw [h.bucket, h.name]
    exact hp.key
  · rw [h.bucket]
    exact hp.bucket
  · simp only [ObjectRecord.recode, h.bucket, h.name, hb, hn]
    rw [← h.bucket, ← h.name]

end SameVersion

variable {o' : ObjectRecord}

theorem SameGuard.version (h : SameGuard o o') (hn : o'.name = o.name) :
    SameVersion o o' := ⟨h.bucket, hn, h.generation, h.blob⟩

structure Grant where
  add : Bytes → Int → Prop
  rename : Bytes → Prop
  touch : Int → Prop
  drop : Int → Prop

namespace Grant

structure Within (gs gs' : Grant) : Prop where
  add : ∀ key g, gs.add key g → gs'.add key g
  rename : ∀ key, gs.rename key → gs'.rename key
  touch : ∀ g, gs.touch g → gs'.touch g
  drop : ∀ g, gs.drop g → gs'.drop g

def quiet (gs : Grant) : Grant := { gs with add := fun _ _ => False, rename := fun _ => False }

theorem quiet_within (gs : Grant) : gs.quiet.Within gs :=
  ⟨fun _ _ h => h.elim, fun _ h => h.elim, fun _ h => h, fun _ h => h⟩

structure Free (gs : Grant) : Prop where
  touch : ∀ g, gs.touch g
  drop : ∀ g, gs.drop g

end Grant

inductive Edit (now : Time) (gs : Grant) : Catalogue → Catalogue → Prop
  | drop {c : Catalogue} {p : Place} {o : ObjectRecord} (ho : o ∈ c.stock p)
      (ht : gs.touch o.generation) (hg : p.slot = .soft ∨ ¬ c.Guarded now o)
      (hgs : gs.drop o.generation) :
      Edit now gs c { c with stock := take c.stock p o }
  | archive {c : Catalogue} {key : Bytes} {o : ObjectRecord} {b : BucketRecord}
      (ho : o ∈ c.stock ⟨.live, key⟩) (ht : gs.touch o.generation)
      (hb : c.bucket o.bucket = some b) (hv : b.versioningEnabled = true) (hh : ¬ Held o) :
      Edit now gs c { c with
        stock := give (take c.stock ⟨.live, key⟩ o) ⟨.kept, key⟩ (o.archived now) }
  | discard {c : Catalogue} {p : Place} {o o' : ObjectRecord} (ho : o ∈ c.stock p)
      (ht : gs.touch o.generation) (hp : p.slot ≠ .soft) (hg : ¬ c.Guarded now o) (hs : SameVersion o o') :
      Edit now gs c { c with stock := give (take c.stock p o) ⟨.soft, p.key⟩ o' }
  | rename {c : Catalogue} {key key' : Bytes} {o o' : ObjectRecord}
      (ho : o ∈ c.stock ⟨.live, key⟩) (ht : gs.touch o.generation) (hg : ¬ c.Guarded now o)
      (hs : SameGuard o o') (hkey : Proper key' o') (hgs : gs.rename key') :
      Edit now gs c { c with stock := give (take c.stock ⟨.live, key⟩ o) ⟨.live, key'⟩ o' }
  | revise {c : Catalogue} {p : Place} {o o' : ObjectRecord} (ho : o ∈ c.stock p)
      (ht : gs.touch o.generation) (hs : SameGuard o o') (hn : o'.name = o.name) :
      Edit now gs c { c with stock := give (take c.stock p o) p o' }
  | add {c : Catalogue} {key : Bytes} {o : ObjectRecord} (hgs : gs.add key o.generation)
      (hu : FreshIn c.stock o.generation) (hkey : Proper key o) :
      Edit now gs c { c with
        stock := give c.stock ⟨.live, key⟩ o, lastGen := max c.lastGen o.generation }
  | advance {c : Catalogue} {g : Int} (hg : c.lastGen ≤ g) :
      Edit now gs c { c with lastGen := g }

abbrev Edits (now : Time) (gs : Grant) : Catalogue → Catalogue → Prop :=
  Relation.ReflTransGen (Edit now gs)

variable {gs : Grant} {c c' : Catalogue}

theorem Edit.bucket (h : Edit now gs c c') : c'.bucket = c.bucket := by
  cases h <;> rfl

theorem Edit.lastGen (h : Edit now gs c c') : c.lastGen ≤ c'.lastGen := by
  cases h with
  | add => exact le_max_left _ _
  | advance hg => exact hg
  | _ => exact le_rfl

variable {p q : Place}

theorem Catalogue.Sound.exchange (h : c.Sound) (ho : o ∈ c.stock p) (hid : o'.generation = o.generation)
    (hkey : Proper q.key o') :
    Catalogue.Sound { c with stock := give (take c.stock p o) q o' } := by
  refine ⟨h.bucket, ?_, h.unique.exchange ho hid q, ?_⟩
  · intro r x hx
    rcases mem_give.mp hx with ⟨rfl, rfl⟩ | hx'
    · exact hkey
    · exact h.proper r x (mem_of_mem_take hx')
  · intro r x hx
    rcases mem_give.mp hx with ⟨-, rfl⟩ | hx'
    · exact hid ▸ h.bounded p o ho
    · exact h.bounded r x (mem_of_mem_take hx')

theorem Edit.sound (h : Edit now gs c c') (hc : c.Sound) : c'.Sound := by
  cases h with
  | drop ho =>
    exact ⟨hc.bucket, fun p o ho => hc.proper p o (mem_of_mem_take ho), hc.unique.take _ _,
      fun p o ho => hc.bounded p o (mem_of_mem_take ho)⟩
  | archive ho =>
    have hkey := hc.proper _ _ ho
    exact hc.exchange ho rfl hkey.archived
  | @discard p _ _ ho _ _ _ hs => exact hc.exchange ho hs.generation (hs.proper (hc.proper p _ ho))
  | rename ho _ _ hs hkey => exact hc.exchange ho hs.generation hkey
  | revise ho _ hs hn => exact hc.exchange ho hs.generation ((hs.version hn).proper (hc.proper _ _ ho))
  | add hgs hu hkey =>
    refine ⟨hc.bucket, ?_, hc.unique.give hu _, ?_⟩
    · intro p x hx
      rcases mem_give.mp hx with ⟨rfl, rfl⟩ | hx'
      · exact hkey
      · exact hc.proper p x hx'
    · intro p x hx
      rcases mem_give.mp hx with ⟨-, rfl⟩ | hx'
      · exact le_max_right _ _
      · exact (hc.bounded p x hx').trans (le_max_left _ _)
  | advance hg => exact ⟨hc.bucket, hc.proper, hc.unique, fun p o ho => (hc.bounded p o ho).trans hg⟩

theorem Edit.fresh {g : Int}
    (h : Edit now gs c c') (hg : ∀ key, ¬ gs.add key g) (hu : FreshIn c.stock g) : FreshIn c'.stock g := by
  cases h with
  | drop => exact hu.take _ _
  | archive ho => exact hu.exchange (b := ObjectRecord.archived _ now) ho rfl _
  | discard ho _ _ _ hs | rename ho _ _ hs | revise ho _ hs => exact hu.exchange ho hs.generation _
  | add hgs => exact hu.give (fun heq => hg _ (heq ▸ hgs)) _
  | advance => exact hu

theorem Edit.mono {gs' : Grant} (hgs : gs.Within gs') (h : Edit now gs c c') : Edit now gs' c c' := by
  cases h with
  | drop ho ht hg hd => exact .drop ho (hgs.touch _ ht) hg (hgs.drop _ hd)
  | archive ho ht hb hv hh => exact .archive ho (hgs.touch _ ht) hb hv hh
  | discard ho ht hp hg hs => exact .discard ho (hgs.touch _ ht) hp hg hs
  | rename ho ht hg hs hkey hr => exact .rename ho (hgs.touch _ ht) hg hs hkey (hgs.rename _ hr)
  | revise ho ht hs hn => exact .revise ho (hgs.touch _ ht) hs hn
  | add ha hu hkey => exact .add (hgs.add _ _ ha) hu hkey
  | advance hg => exact .advance hg

theorem Edits.lastGen (h : Edits now gs c c') : c.lastGen ≤ c'.lastGen := by
  induction h with
  | refl => exact le_rfl
  | tail _ hs ih => exact ih.trans hs.lastGen

theorem Edits.sound (h : Edits now gs c c') (hc : c.Sound) : c'.Sound := by
  induction h with
  | refl => exact hc
  | tail _ hs ih => exact hs.sound ih

theorem Edits.fresh {g : Int}
    (h : Edits now gs c c') (hg : ∀ key, ¬ gs.add key g) (hu : FreshIn c.stock g) : FreshIn c'.stock g := by
  induction h with
  | refl => exact hu
  | tail _ hs ih => exact hs.fresh hg ih

theorem Edits.mono {gs' : Grant} (hgs : gs.Within gs') (h : Edits now gs c c') : Edits now gs' c c' :=
  Relation.ReflTransGen.mono (fun _ _ hs => Edit.mono hgs hs) _ _ h

theorem Edit.untouched {x : ObjectRecord}
    (h : Edit now gs c c') (hx : x ∈ c.stock p) (hgs : ¬ gs.touch x.generation) :
    x ∈ c'.stock p := by
  have hne : ∀ o : ObjectRecord, gs.touch o.generation → x ≠ o := fun o ho heq => hgs (heq ▸ ho)
  cases h with
  | drop _ ht => exact mem_take_of_ne hx (.inr (hne _ ht))
  | archive _ ht | discard _ ht | rename _ ht | revise _ ht =>
    exact mem_give.mpr (.inr (mem_take_of_ne hx (.inr (hne _ ht))))
  | add => exact mem_give.mpr (.inr hx)
  | advance => exact hx

theorem Edits.untouched {x : ObjectRecord}
    (h : Edits now gs c c') (hx : x ∈ c.stock p) (hgs : ¬ gs.touch x.generation) :
    x ∈ c'.stock p := by
  induction h with
  | refl => exact hx
  | tail _ hs ih => exact hs.untouched ih hgs

def Catalogue.Settles (c : Catalogue) (o : ObjectRecord) (p q : Place) : Prop :=
  q = p ∨ (p.slot = .live ∧ q = ⟨.kept, p.key⟩ ∧ ¬ Held o ∧
    ∃ b, c.bucket o.bucket = some b ∧ b.versioningEnabled = true)

structure Keeps (now : Time) (c c' : Catalogue) : Prop where
  bucket : c'.bucket = c.bucket
  kept : ∀ p o, p.slot ≠ .soft → o ∈ c.stock p → c.Guarded now o →
    ∃ q o', o' ∈ c'.stock q ∧ c.Settles o p q ∧ SameGuard o o'

theorem Keeps.refl (now : Time) (c : Catalogue) : Keeps now c c :=
  ⟨rfl, fun p o _ ho _ => ⟨p, o, ho, .inl rfl, .refl o⟩⟩

theorem Catalogue.Settles.slot_ne_soft (h : c.Settles o p q) (hp : p.slot ≠ .soft) : q.slot ≠ .soft := by
  rcases h with rfl | ⟨-, rfl, -⟩
  · exact hp
  · simp

theorem Catalogue.Settles.trans {r : Place} (h : c.Settles o p q) (hs : SameGuard o o') (hb : c'.bucket = c.bucket)
    (h' : c'.Settles o' q r) : c.Settles o p r := by
  rcases h with rfl | ⟨hp, rfl, hh, hv⟩
  · rcases h' with rfl | ⟨hq, rfl, hh, b, hb', hv⟩
    · exact .inl rfl
    · refine .inr ⟨hq, rfl, fun hheld => hh (hs.held.mpr hheld), b, ?_, hv⟩
      rw [← hs.bucket, ← hb]
      exact hb'
  · rcases h' with rfl | ⟨hq, -⟩
    · exact .inr ⟨hp, rfl, hh, hv⟩
    · simp at hq

theorem Keeps.trans {c'' : Catalogue} (h : Keeps now c c') (h' : Keeps now c' c'') : Keeps now c c'' := by
  refine ⟨h'.bucket.trans h.bucket, fun p o hp ho hg => ?_⟩
  obtain ⟨q, o', ho', hset, hs⟩ := h.kept p o hp ho hg
  have hg' : c'.Guarded now o' := by
    have heq : c'.Guarded now o' ↔ c.Guarded now o' := by
      rw [Catalogue.Guarded, Catalogue.Guarded, h.bucket]
    exact heq.mpr ((hs.guarded c now).mpr hg)
  obtain ⟨r, o'', ho'', hset', hs'⟩ := h'.kept q o' (hset.slot_ne_soft hp) ho' hg'
  exact ⟨r, o'', ho'', hset.trans hs h.bucket hset', hs.trans hs'⟩

theorem Keeps.of_exchange (hcase : p.slot = .soft ∨ ¬ c.Guarded now o ∨ (c.Settles o p q ∧ SameGuard o o')) :
    Keeps now c { c with stock := give (take c.stock p o) q o' } := by
  refine ⟨rfl, fun r x hr hx hg => ?_⟩
  by_cases hsame : r = p ∧ x = o
  · obtain ⟨rfl, rfl⟩ := hsame
    rcases hcase with hsoft | hn | ⟨hset, hs⟩
    · exact absurd hsoft hr
    · exact absurd hg hn
    · exact ⟨q, o', mem_give.mpr (.inl ⟨rfl, rfl⟩), hset, hs⟩
  · refine ⟨r, x, mem_give.mpr (.inr (mem_take_of_ne hx ?_)), .inl rfl, .refl x⟩
    exact Decidable.not_and_iff_or_not.mp hsame

theorem Edit.keeps (h : Edit now gs c c') : Keeps now c c' := by
  cases h with
  | @drop p o ho ht hg hgs =>
    refine ⟨rfl, fun r x hr hx hgx => ⟨r, x, mem_take_of_ne hx ?_, .inl rfl, .refl x⟩⟩
    by_contra hne
    push Not at hne
    obtain ⟨rfl, rfl⟩ := hne
    exact hg.elim hr fun hn => hn hgx
  | archive ho ht hb hv hh =>
    refine .of_exchange (.inr (.inr ⟨.inr ⟨rfl, rfl, hh, _, hb, hv⟩, ?_⟩))
    exact ⟨rfl, rfl, rfl, rfl, rfl, rfl, rfl⟩
  | discard ho ht hp hg | rename ho ht hg => exact .of_exchange (.inr (.inl hg))
  | revise ho ht hs hn => exact .of_exchange (.inr (.inr ⟨.inl rfl, hs⟩))
  | add hgs hu hkey =>
    exact ⟨rfl, fun r x _ hx _ => ⟨r, x, mem_give.mpr (.inr hx), .inl rfl, .refl x⟩⟩
  | advance hg => exact ⟨rfl, fun r x _ hx _ => ⟨r, x, hx, .inl rfl, .refl x⟩⟩

theorem Edits.keeps (h : Edits now gs c c') : Keeps now c c' := by
  induction h with
  | refl => exact .refl now c
  | tail _ hs ih => exact ih.trans hs.keeps

end CloudBurrow.Storage
