import CloudBurrow.Storage.Protection
import CloudBurrow.Storage.Recoded

namespace CloudBurrow.Storage

open Utf8 Inventory Interleaving

def storing (name : Bytes) (pre : ObjectPreconditions) : Pending :=
  .upload { bucket := shelfBucket, upload := { name }, blob := { id := [2], size := 1, crc32c := 0 }, pre }

def createLedger : Pending := storing ledger { genMatch := some 0 }

def shelved : World := ledgerStored.serve (storing (ascii "atlas") {}) [.tick 2, .tick 2, .tick 2]

def drawnTwice : World := shelved.serve createLedger [.tick 3, .tick 3]

theorem shelf_ran : (cloudBurrow.drive [.tick 2, .tick 2, .tick 2] (storing (ascii "atlas") {}) ledgerStored).1.isNone = true ∧
    (cloudBurrow.drive [.tick 3, .tick 3] createLedger shelved).1.any (fun p => p.ticket = some 4 ∧
      (p.step (.tick 3) (drawnTwice.server.tx (.tick 3))).1.toOption.isNone) = true := by
  decide +kernel

theorem creating_some : (cloudBurrow.drive [.tick 3, .tick 3] createLedger shelved).1.isSome = true :=
  Option.isSome_of_any shelf_ran.2

def creatingLedger : Pending := (cloudBurrow.drive [.tick 3, .tick 3] createLedger shelved).1.get creating_some

theorem creatingLedger_refused : creatingLedger.ticket = some 4 ∧
    (creatingLedger.step (.tick 3) (drawnTwice.server.tx (.tick 3))).1.toOption = none := by
  have hany : (some creatingLedger).any _ = true := (Option.some_get creating_some).symm ▸ shelf_ran.2
  simpa using hany

theorem reach_creatingLedger : Reach cloudBurrow Careful {} ⟨drawnTwice, [] ++ creatingLedger :: []⟩ := by
  have hstored : Reach cloudBurrow Careful {} ⟨shelved, []⟩ := by
    refine reach_serve (reach_ledgerStored fun _ _ _ _ h => h) (storing (ascii "atlas") {}) [.tick 2, .tick 2, .tick 2] rfl ?_ shelf_ran.1
    have hvalid : Valid (ascii "atlas") := by decide
    exact ⟨trivial, trivial, hvalid, trivial⟩
  exact Reach.pause (l := createLedger) [.tick 3, .tick 3] hstored rfl ⟨trivial, trivial, trivial⟩ creating_some

theorem creatingLedger_heeds : Careful (.tick 3) drawnTwice creatingLedger ([] ++ []) := by
  have hvalid : Valid ledger := by decide
  exact hvalid

theorem generation_names_one_version {a : Sys World Pending} (h : Reach cloudBurrow Careful {} a) :
    (∀ p q, ∀ o ∈ a.shared.server.store.stock p, ∀ o' ∈ a.shared.server.store.stock q,
      o.generation = o'.generation → p = q ∧ o = o') ∧
    (∀ p, ∀ o ∈ a.shared.server.store.stock p,
      objectKey o.bucket o.name = p.key ∧ o.generation ≤ a.shared.server.lastGen) ∧
    (a.running.filterMap Pending.ticket).Nodup ∧
    ∀ r ∈ a.running, ∀ g ∈ r.ticket, g ≤ a.shared.server.lastGen ∧
      ∀ p, ∀ o ∈ a.shared.server.store.stock p, o.generation ≠ g := by
  have ho := orderly_of_reach (fun _ _ _ _ hok => hok) h
  refine ⟨fun p q o hp o' hq hgen => ?_, fun p o hp => ?_, ho.apart, fun r hr g hg => ?_⟩
  · obtain rfl : p = q := by_contra fun hne => ho.sound.unique.apart p q o o' hne hp hq hgen
    exact ⟨rfl, Multiset.inj_on_of_nodup_map (ho.sound.unique.once p) o hp o' hq hgen⟩
  · exact ⟨(ho.sound.proper p o hp).key, ho.sound.bounded p o hp⟩
  · obtain ⟨o, hdrawn, rfl⟩ := mem_ticket hg
    exact ⟨(ho.entitled r hr).bound o hdrawn, (ho.entitled r hr).fresh o hdrawn⟩

theorem shelf_named : (creatingLedger.ticket = some 4 ∧
      (drawnTwice.server.store.get .object (objectKey shelfBucket ledger)).isSome = true ∧
      (drawnTwice.server.store.get .object (objectKey shelfBucket (ascii "atlas"))).isSome = true) ∧
    (∀ p q, ∀ o ∈ (Sys.mk drawnTwice ([] ++ creatingLedger :: [])).shared.server.store.stock p,
      ∀ o' ∈ (Sys.mk drawnTwice ([] ++ creatingLedger :: [])).shared.server.store.stock q,
        o.generation = o'.generation → p = q ∧ o = o') ∧
    ∀ p, ∀ o ∈ (Sys.mk drawnTwice ([] ++ creatingLedger :: [])).shared.server.store.stock p, o.generation ≠ 4 := by
  obtain ⟨hone, -, -, hrunning⟩ := generation_names_one_version reach_creatingLedger
  obtain ⟨hticket, -⟩ := creatingLedger_refused
  exact ⟨⟨hticket, by decide +kernel⟩, hone, (hrunning creatingLedger (by simp) 4 hticket).2⟩

structure Spent (g : Int) (a : Sys World Pending) : Prop where
  drawn : g ≤ a.shared.server.lastGen
  gone : FreshIn a.shared.server.catalogue.stock g
  unclaimed : ∀ p ∈ a.running, g ∉ p.ticket

theorem Spent.step {g : Int} {a b : Sys World Pending} (h : Reach cloudBurrow Careful {} a)
    (hs : Step cloudBurrow Careful a b) (hg : Spent g a) : Spent g b := by
  have ho := orderly_of_reach (fun _ _ _ _ hok => hok) h
  cases hs with
  | arrive harrives =>
    refine ⟨hg.drawn, hg.gone, fun p hp => ?_⟩
    rcases List.mem_cons.mp hp with rfl | hp
    · have hnone : p.ticket = none := by
        cases p <;> first | rfl | cases harrives
      rw [hnone]
      exact Option.not_mem_none g
    · exact hg.unclaimed p hp
  | @run w e left right p hok =>
    have hchange := World.advance_change ho.sound (ho.entitled p (by simp)) hok
    refine ⟨hg.drawn.trans hchange.lastGen, hchange.fresh ?_ hg.gone, fun q hq hclaims => ?_⟩
    · rintro key (⟨o, hdrawn, -, rfl⟩ | hlt)
      · exact hg.unclaimed p (by simp) (Option.mem_map_of_mem _ hdrawn)
      · exact absurd hg.drawn (not_le.mpr hlt)
    · rcases mem_others hq with hq | hq
      · obtain ⟨events, tx, hstep, -⟩ := World.advance_next hq
        obtain ⟨o, hdrawn, rfl⟩ := mem_ticket hclaims
        exact absurd hg.drawn (not_le.mpr ((Pending.step_launched hstep).drew o hdrawn).later)
      · exact hg.unclaimed q (by simp only [List.mem_append, List.mem_cons] at hq ⊢; tauto) hclaims

theorem spent_generation_stays_spent {g : Int} {a b : Sys World Pending} (h : Reach cloudBurrow Careful {} a)
    (hg : Spent g a) (hab : Relation.ReflTransGen (Step cloudBurrow Careful) a b) : Spent g b := by
  suffices hboth : Reach cloudBurrow Careful {} b ∧ Spent g b from hboth.2
  induction hab with
  | refl => exact ⟨h, hg⟩
  | tail _ hs ih => exact ⟨.step ih.1 hs, ih.2.step ih.1 hs⟩

theorem spent_of_refused {w : World} {left right : List Pending} {p : Pending} {e : Env} {g : Int}
    (h : Reach cloudBurrow Careful {} ⟨w, left ++ p :: right⟩) (hok : Careful e w p (left ++ right)) (hg : g ∈ p.ticket)
    (hrefused : (p.step e (w.server.tx e)).1.toOption = none) :
    Spent g ⟨(w.advance e p).2, left ++ (w.advance e p).1.toList ++ right⟩ := by
  have ho := orderly_of_reach (fun _ _ _ _ hok => hok) h
  have hp := ho.entitled p (by simp)
  have hchange := World.advance_change ho.sound hp hok
  obtain ⟨o, hdrawn, rfl⟩ := mem_ticket hg
  obtain ⟨hnone, hstore⟩ : (w.advance e p).1 = none ∧ (w.advance e p).2.server.store = w.server.store := by
    unfold World.advance Server.update
    rcases hstep : p.step e (w.server.tx e) with ⟨r | r, tx⟩
    · exact ⟨rfl, rfl⟩
    · simp [hstep, Except.toOption] at hrefused
  refine ⟨(hp.bound o hdrawn).trans hchange.lastGen, ?_, fun q hq => ?_⟩
  · simpa only [FreshIn, Server.catalogue, hstore] using hp.fresh o hdrawn
  · rw [hnone] at hq
    exact ticket_apart ho.apart hg (by simpa using hq)

theorem refused_stays_spent : creatingLedger.ticket = some 4 ∧
    ∃ a : Sys World Pending, a.shared = ((drawnTwice.advance (.tick 3) creatingLedger).2.advance (.tick 4) deleteLedger).2 ∧
      Spent 4 a := by
  obtain ⟨hticket, hrefused⟩ := creatingLedger_refused
  have hreach := reach_creatingLedger.step (.run creatingLedger_heeds)
  have hspent := spent_of_refused reach_creatingLedger creatingLedger_heeds hticket hrefused
  exact ⟨hticket, _, rfl, spent_generation_stays_spent hreach hspent
    ((Relation.ReflTransGen.single (.arrive (l := deleteLedger) rfl)).tail (@Step.run _ _ _ _ _ _ _ [] _ _ heeds_deleteLedger))⟩

theorem reachable_records_settled {a : Sys World Pending}
    (h : Reach cloudBurrow (fun _ _ _ _ => True) {} a) :
    (∀ name b, a.shared.server.store.get .bucket name = some b → b.name = name) ∧
    ∀ p, ∀ o ∈ a.shared.server.store.stock p, o.recode = o ∧ slash ∉ o.bucket ∧
      (p.slot = .live → ∃ name, p.key = objectKey o.bucket name ∧ o.name = toValid name) := by
  obtain ⟨hbucket, hstock⟩ := recoded_iff.mp (recoded_of_reach h)
  refine ⟨hbucket, fun p o ho => ?_⟩
  obtain ⟨hfiled, hplace⟩ := hstock p o ho
  refine ⟨hfiled.recode, hfiled.bucket.1, fun hlive => ?_⟩
  rw [hlive] at hplace
  exact hplace

theorem heldWhileMoving_settled :
    (∀ name b, (Sys.mk heldWhileMoving ([] ++ movingLedger :: [])).shared.server.store.get .bucket name = some b →
      b.name = name) ∧
    ∀ p, ∀ o ∈ (Sys.mk heldWhileMoving ([] ++ movingLedger :: [])).shared.server.store.stock p,
      o.recode = o ∧ slash ∉ o.bucket ∧
        (p.slot = .live → ∃ name, p.key = objectKey o.bucket name ∧ o.name = toValid name) :=
  reachable_records_settled reach_heldWhileMoving

end CloudBurrow.Storage
